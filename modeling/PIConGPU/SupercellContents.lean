import PIConGPU.FrameContents
import PIConGPU.ParticlesBox

/-!
# Contents of a list of frames

The particles of a supercell with a given `multiMask` as a multiset, the shape of a list in which
only the last frame may have free slots, and the effect of a parallel store into one frame.
-/
namespace PIConGPU.ParticlesBox

open BlockThreads FrameContents

variable {D T : ℕ} {α : Type*}

/-- Every thread with a destination enables the slot there and copies the attributes. -/
def store (box : ParticlesBox D T α) (threads : List (Fin T)) (dest : Fin T → Option (Ptr × Fin T))
    (value : Fin T → α) : ParticlesBox D T α :=
  { box with
    multiMask := Function.curry (scatter dest (fun _ => 1) threads (Function.uncurry box.multiMask))
    attributes := Function.curry (scatter dest value threads (Function.uncurry box.attributes)) }

/-- The selected slots of a frame become free. -/
def deleteParticles (box : ParticlesBox D T α) (frame : Ptr) (p : Fin T → Prop) [DecidablePred p] :
    ParticlesBox D T α :=
  { box with
    multiMask := Function.update box.multiMask frame fun t => if p t then 0 else box.multiMask frame t }

/-- The particles with mask `m` in a list of frames. -/
def contents (box : ParticlesBox D T α) (frames : List Ptr) (m : ℕ) : Multiset α :=
  (frames.map fun p => particles (box.multiMask p) (box.attributes p) m).sum

/-- All frames but the last are full, and the last one is occupied up to slot `k`. -/
def Filled (box : ParticlesBox D T α) (frames : List Ptr) (k : ℕ) : Prop :=
  ∀ l p, frames = l ++ [p] → (∀ q ∈ l, ∀ i, box.multiMask q i ≠ 0) ∧ ∀ i, box.multiMask p i ≠ 0 ↔ i.val < k

variable {box box' : ParticlesBox D T α} {frames : List Ptr} {p : Ptr} {k : ℕ}

@[simp] theorem contents_nil (box : ParticlesBox D T α) (m : ℕ) : box.contents [] m = 0 := rfl

@[simp] theorem contents_cons (box : ParticlesBox D T α) (p : Ptr) (l : List Ptr) (m : ℕ) :
    box.contents (p :: l) m = particles (box.multiMask p) (box.attributes p) m + box.contents l m := by
  simp [contents]

@[simp] theorem contents_append (box : ParticlesBox D T α) (l r : List Ptr) (m : ℕ) :
    box.contents (l ++ r) m = box.contents l m + box.contents r m := by
  simp [contents]

theorem contents_congr {m : ℕ} (hmask : ∀ p ∈ frames, box'.multiMask p = box.multiMask p)
    (hattr : ∀ p ∈ frames, box'.attributes p = box.attributes p) :
    box'.contents frames m = box.contents frames m := by
  unfold contents
  congr 1
  refine List.map_congr_left fun p hp => ?_
  rw [hmask p hp, hattr p hp]

theorem Filled.congr (h : Filled box frames k) (hmask : ∀ p ∈ frames, box'.multiMask p = box.multiMask p) :
    Filled box' frames k := by
  intro l p he
  obtain ⟨hfull, hlast⟩ := h l p he
  refine ⟨fun q hq => ?_, ?_⟩
  · rw [hmask q (by simp [he, hq])]
    exact hfull q hq
  · rw [hmask p (by simp [he])]
    exact hlast

theorem Filled.full (h : Filled box frames T) : ∀ q ∈ frames, ∀ i, box.multiMask q i ≠ 0 := by
  rcases List.eq_nil_or_concat frames with rfl | ⟨l, p, he⟩
  · simp
  · rw [List.concat_eq_append] at he
    obtain ⟨hfull, hlast⟩ := h l p he
    intro q hq i
    rw [he] at hq
    rcases List.mem_append.mp hq with hq | hq
    · exact hfull q hq i
    · obtain rfl : q = p := by simpa using hq
      exact (hlast i).mpr i.isLt

theorem filled_of_full (h : ∀ q ∈ frames, ∀ i, box.multiMask q i ≠ 0) : Filled box frames T := by
  intro l p he
  refine ⟨fun q hq => h q (by simp [he, hq]), fun i => ?_⟩
  simp [h p (by simp [he]) i]

theorem Filled.append_empty (h : Filled box frames T) (hp : box.multiMask p = fun _ => 0) :
    Filled box (frames ++ [p]) 0 := by
  intro l q he
  obtain ⟨rfl, hq⟩ := List.append_inj' he rfl
  obtain rfl : p = q := by simpa using hq
  exact ⟨h.full, by simp [hp]⟩

theorem contents_append_empty (hp : box.multiMask p = fun _ => 0) {m : ℕ} (hm : m ≠ 0) :
    box.contents (frames ++ [p]) m = box.contents frames m := by
  rw [contents_append, contents_cons, contents_nil, particles_eq_zero _ (by simp [hp, hm.symm])]
  simp

/-- The representation invariant of a supercell with `size` particles in its last frame. -/
structure Compact (box : ParticlesBox D T α) (frames : List Ptr) (size : ℕ) : Prop where
  filled : Filled box frames size
  size_of_nil : frames = [] → size = 0
  size_le : size ≤ T

theorem Compact.congr {size : ℕ} (h : Compact box frames size)
    (hmask : ∀ p ∈ frames, box'.multiMask p = box.multiMask p) : Compact box' frames size :=
  ⟨h.filled.congr hmask, h.size_of_nil, h.size_le⟩

section Store

variable {threads : List (Fin T)} {dest : Fin T → Option (Ptr × Fin T)} (value : Fin T → α)

theorem store_multiMask_of_ne (box : ParticlesBox D T α) {i : Fin T} (h : ∀ t, dest t ≠ some (p, i)) :
    (box.store threads dest value).multiMask p i = box.multiMask p i :=
  scatter_of_forall_ne _ _ fun t _ => h t

theorem store_attributes_of_ne (box : ParticlesBox D T α) {i : Fin T} (h : ∀ t, dest t ≠ some (p, i)) :
    (box.store threads dest value).attributes p i = box.attributes p i :=
  scatter_of_forall_ne _ _ fun t _ => h t

theorem store_multiMask_of_eq (box : ParticlesBox D T α) (hall : ∀ t, t ∈ threads)
    (hinj : ∀ t t' a, dest t = some a → dest t' = some a → t = t') {t : Fin T} {i : Fin T}
    (ht : dest t = some (p, i)) : (box.store threads dest value).multiMask p i = 1 :=
  scatter_of_mem (fun _ => 1) _ (fun t _ t' _ => hinj t t') (hall t) ht

theorem store_attributes_of_eq (box : ParticlesBox D T α) (hall : ∀ t, t ∈ threads)
    (hinj : ∀ t t' a, dest t = some a → dest t' = some a → t = t') {t : Fin T} {i : Fin T}
    (ht : dest t = some (p, i)) : (box.store threads dest value).attributes p i = value t :=
  scatter_of_mem value _ (fun t _ t' _ => hinj t t') (hall t) ht

theorem store_multiMask_frame (box : ParticlesBox D T α) (h : ∀ t i, dest t ≠ some (p, i)) :
    (box.store threads dest value).multiMask p = box.multiMask p :=
  funext fun i => store_multiMask_of_ne value box fun t => h t i

theorem store_attributes_frame (box : ParticlesBox D T α) (h : ∀ t i, dest t ≠ some (p, i)) :
    (box.store threads dest value).attributes p = box.attributes p :=
  funext fun i => store_attributes_of_ne value box fun t => h t i

variable (hall : ∀ t, t ∈ threads) (hinj : ∀ t t' a, dest t = some a → dest t' = some a → t = t')
  (hempty : ∀ t i, dest t = some (p, i) → box.multiMask p i = 0)
include hall hinj hempty

theorem particles_store_frame :
    particles ((box.store threads dest value).multiMask p) ((box.store threads dest value).attributes p) 1 =
      particles (box.multiMask p) (box.attributes p) 1 +
        (Finset.univ.filter fun t => ∃ i, dest t = some (p, i)).val.map value := by
  set S : Finset (Fin T) := Finset.univ.filter fun i => ∃ t, dest t = some (p, i) with hS
  have hnot : ∀ i ∉ S, ∀ t, dest t ≠ some (p, i) := fun i hi t ht => hi (by simpa [hS] using ⟨t, ht⟩)
  rw [particles_store (S := S) (fun i hi => ?_) (fun i hi => ?_) fun i hi =>
    ⟨store_multiMask_of_ne value box (hnot i hi), store_attributes_of_ne value box (hnot i hi)⟩]
  · congr 1
    exact (map_eq_map_of_matching (R := fun t i => dest t = some (p, i))
      (fun t i i' h h' => by simpa using h.symm.trans h') (fun t t' i h h' => hinj t t' _ h h')
      fun t i h => (store_attributes_of_eq value box hall hinj h).symm).symm
  · obtain ⟨t, ht⟩ := (Finset.mem_filter.mp hi).2
    exact hempty t i ht
  · obtain ⟨t, ht⟩ := (Finset.mem_filter.mp hi).2
    exact store_multiMask_of_eq value box hall hinj ht

theorem particles_store_frame_of_ne {m : ℕ} (hm : 2 ≤ m) :
    particles ((box.store threads dest value).multiMask p) ((box.store threads dest value).attributes p) m =
      particles (box.multiMask p) (box.attributes p) m := by
  set S : Finset (Fin T) := Finset.univ.filter fun i => ∃ t, dest t = some (p, i) with hS
  have hnot : ∀ i ∉ S, ∀ t, dest t ≠ some (p, i) := fun i hi t ht => hi (by simpa [hS] using ⟨t, ht⟩)
  refine particles_store_of_ne (S := S) hm (fun i hi => ?_) (fun i hi => ?_) fun i hi =>
    ⟨store_multiMask_of_ne value box (hnot i hi), store_attributes_of_ne value box (hnot i hi)⟩
  · obtain ⟨t, ht⟩ := (Finset.mem_filter.mp hi).2
    exact hempty t i ht
  · obtain ⟨t, ht⟩ := (Finset.mem_filter.mp hi).2
    exact store_multiMask_of_eq value box hall hinj ht

omit hempty in
theorem contents_store (hnd : frames.Nodup)
    (hfree : ∀ p ∈ frames, ∀ t i, dest t = some (p, i) → box.multiMask p i = 0) :
    (box.store threads dest value).contents frames 1 = box.contents frames 1 +
      (Finset.univ.filter fun t => ∃ p ∈ frames, ∃ i, dest t = some (p, i)).val.map value := by
  induction frames with
  | nil => simp
  | cons p l ih =>
    obtain ⟨hp, hl⟩ := List.nodup_cons.mp hnd
    have hfilter : (Finset.univ.filter fun t => ∃ q ∈ p :: l, ∃ i, dest t = some (q, i)) =
        (Finset.univ.filter fun t => ∃ i, dest t = some (p, i)).disjUnion
          (Finset.univ.filter fun t => ∃ q ∈ l, ∃ i, dest t = some (q, i)) (by
            rw [Finset.disjoint_left]
            intro t ht ht'
            obtain ⟨i, hi⟩ := (Finset.mem_filter.mp ht).2
            obtain ⟨q, hq, j, hj⟩ := (Finset.mem_filter.mp ht').2
            obtain ⟨rfl, -⟩ : p = q ∧ i = j := by simpa using hi.symm.trans hj
            exact hp hq) := by
      ext t
      simp
    rw [hfilter, Finset.disjUnion_val, Multiset.map_add, contents_cons, contents_cons,
      ih hl fun q hq => hfree q (List.mem_cons_of_mem _ hq),
      particles_store_frame value hall hinj (hfree p (List.mem_cons_self ..))]
    exact add_add_add_comm _ _ _ _

omit hempty in
theorem contents_store_of_ne {m : ℕ} (hm : 2 ≤ m)
    (hfree : ∀ p ∈ frames, ∀ t i, dest t = some (p, i) → box.multiMask p i = 0) :
    (box.store threads dest value).contents frames m = box.contents frames m := by
  unfold contents
  congr 1
  exact List.map_congr_left fun p hp => particles_store_frame_of_ne value hall hinj (hfree p hp) hm

omit hempty in
theorem Filled.store {l : List Ptr} {k' : ℕ} (h : Filled box (l ++ [p]) k) (hk : k ≤ k')
    (hl : ∀ q ∈ l, ∀ t i, dest t ≠ some (q, i)) (hlt : ∀ t i, dest t = some (p, i) → k ≤ i.val ∧ i.val < k')
    (hex : ∀ i : Fin T, k ≤ i.val → i.val < k' → ∃ t, dest t = some (p, i)) :
    Filled (box.store threads dest value) (l ++ [p]) k' ∧
      (∀ m, 2 ≤ m →
        (box.store threads dest value).contents (l ++ [p]) m = box.contents (l ++ [p]) m) ∧
      (box.store threads dest value).contents (l ++ [p]) 1 = box.contents (l ++ [p]) 1 +
        (Finset.univ.filter fun t => ∃ i, dest t = some (p, i)).val.map value := by
  obtain ⟨hfull, hlast⟩ := h l p rfl
  have hfree : ∀ t i, dest t = some (p, i) → box.multiMask p i = 0 := by
    intro t i ht
    by_contra hne
    have := (hlast i).mp hne
    have := (hlt t i ht).1
    omega
  have hcl : ∀ m, (box.store threads dest value).contents l m = box.contents l m := fun m =>
    contents_congr (fun q hq => store_multiMask_frame value box (hl q hq))
      fun q hq => store_attributes_frame value box (hl q hq)
  refine ⟨?_, fun m hm => ?_, ?_⟩
  · intro l' p' he
    obtain ⟨rfl, hp'⟩ := List.append_inj' he rfl
    obtain rfl : p = p' := by simpa using hp'
    refine ⟨fun q hq => ?_, fun i => ?_⟩
    · rw [store_multiMask_frame value box (hl q hq)]
      exact hfull q hq
    · by_cases hi : ∃ t, dest t = some (p, i)
      · obtain ⟨t, ht⟩ := hi
        rw [store_multiMask_of_eq value box hall hinj ht]
        simp [(hlt t i ht).2]
      · rw [store_multiMask_of_ne value box (by simpa using hi), hlast i]
        refine ⟨fun h => h.trans_le hk, fun h => ?_⟩
        by_contra hne
        exact hi (hex i (not_lt.mp hne) h)
  · simp only [contents_append, contents_cons, contents_nil, hcl,
      particles_store_frame_of_ne value hall hinj hfree hm]
  · simp only [contents_append, contents_cons, contents_nil, hcl,
      particles_store_frame value hall hinj hfree, add_zero, add_assoc]

end Store

end PIConGPU.ParticlesBox
