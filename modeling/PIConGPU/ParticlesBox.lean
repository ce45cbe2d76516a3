import PIConGPU.BlockThreads
import PIConGPU.Mask

/-!
# Frame lists of the supercells

Every supercell owns a doubly linked list of frames with `T` slots each. Frames live on the heap
of the device; an address is a natural number and the null pointer is `none`. A frame keeps its
slots, its links and its supercell in separate functions of the address.
-/
namespace PIConGPU

abbrev Ptr := ℕ

/-- The heap allocator: whether attempt `k` succeeds, and which frame it returns, is left open. -/
structure MallocMC where
  malloc : ℕ → Finset Ptr → Option Ptr
  fresh : ∀ k A p, malloc k A = some p → p ∉ A

def ParticlesBase.nextFree : MallocMC where
  malloc _ A := some (A.sup id + 1)
  fresh _ A p h := by
    obtain rfl : A.sup id + 1 = p := Option.some.inj h
    exact fun hmem => absurd (@Finset.le_sup _ _ _ _ A id _ hmem) (Nat.not_succ_le_self _)

/-- Device memory of one species. Slot `i` of frame `p` holds a particle with the given attributes
if its `multiMask` is not zero. -/
structure ParticlesBox (D T : ℕ) (α : Type*) where
  multiMask : Ptr → Fin T → ℕ
  attributes : Ptr → Fin T → α
  previousFrame : Ptr → Option Ptr
  nextFrame : Ptr → Option Ptr
  firstFramePtr : DataSpace D → Option Ptr
  lastFramePtr : DataSpace D → Option Ptr
  mustShift : DataSpace D → Bool
  sizeLastFrame : DataSpace D → ℕ
  allocated : Finset Ptr
  attempts : ℕ

namespace ParticlesBox

variable {D T : ℕ} {α : Type*}

/-- One attempt of `getEmptyFrame`. The loop goes on after a success. -/
def tryMalloc (M : MallocMC) (st : Option Ptr × ParticlesBox D T α) (_numTries : ℕ) :
    Option Ptr × ParticlesBox D T α :=
  match M.malloc st.2.attempts st.2.allocated with
  | some p => (some p, { st.2 with
      multiMask := Function.update st.2.multiMask p fun _ => 0
      allocated := insert p st.2.allocated
      attempts := st.2.attempts + 1 })
  | none => (none, { st.2 with attempts := st.2.attempts + 1 })

def maxTries : ℕ := 13

def getEmptyFrame (M : MallocMC) (box : ParticlesBox D T α) : Option Ptr × ParticlesBox D T α :=
  (List.range maxTries).foldl (tryMalloc M) (none, box)

def removeFrame (box : ParticlesBox D T α) (frame : Ptr) : ParticlesBox D T α :=
  { box with allocated := box.allocated.erase frame }

def setAsFirstFrame (box : ParticlesBox D T α) (frame : Ptr) (idx : DataSpace D) : ParticlesBox D T α :=
  let oldFirstFramePtr := box.firstFramePtr idx
  let box := { box with
    previousFrame := Function.update box.previousFrame frame none
    nextFrame := Function.update box.nextFrame frame oldFirstFramePtr
    firstFramePtr := Function.update box.firstFramePtr idx (some frame) }
  match oldFirstFramePtr with
  | some old => { box with previousFrame := Function.update box.previousFrame old (some frame) }
  | none => { box with lastFramePtr := Function.update box.lastFramePtr idx (some frame) }

def setAsLastFrame (box : ParticlesBox D T α) (frame : Ptr) (idx : DataSpace D) : ParticlesBox D T α :=
  let oldLastFramePtr := box.lastFramePtr idx
  let box := { box with
    nextFrame := Function.update box.nextFrame frame none
    previousFrame := Function.update box.previousFrame frame oldLastFramePtr
    lastFramePtr := Function.update box.lastFramePtr idx (some frame) }
  match oldLastFramePtr with
  | some old => { box with nextFrame := Function.update box.nextFrame old (some frame) }
  | none => { box with firstFramePtr := Function.update box.firstFramePtr idx (some frame) }

/-- Returns whether more frames are in the list. -/
def removeLastFrame (box : ParticlesBox D T α) (idx : DataSpace D) : Bool × ParticlesBox D T α :=
  match box.lastFramePtr idx with
  | none => (false, box)
  | some last =>
    match box.previousFrame last with
    | some prev => (true, { box with
        nextFrame := Function.update box.nextFrame prev none
        lastFramePtr := Function.update box.lastFramePtr idx (some prev)
        allocated := box.allocated.erase last })
    | none => (false, { box with
        firstFramePtr := Function.update box.firstFramePtr idx none
        lastFramePtr := Function.update box.lastFramePtr idx none
        allocated := box.allocated.erase last })

def setSizeLastFrame (box : ParticlesBox D T α) (idx : DataSpace D) (size : ℕ) : ParticlesBox D T α :=
  { box with sizeLastFrame := Function.update box.sizeLastFrame idx (size % 65536) }

def setMustShift (box : ParticlesBox D T α) (idx : DataSpace D) (value : Bool) : ParticlesBox D T α :=
  { box with mustShift := Function.update box.mustShift idx value }

/-- The pointers of all supercells describe the given lists: each list is linked in both
directions, and no frame is in two places. -/
structure Linked (box : ParticlesBox D T α) (L : DataSpace D → List Ptr) : Prop where
  first : ∀ c, box.firstFramePtr c = (L c).head?
  last : ∀ c, box.lastFramePtr c = (L c).getLast?
  next : ∀ c l p r, L c = l ++ p :: r → box.nextFrame p = r.head?
  previous : ∀ c l p r, L c = l ++ p :: r → box.previousFrame p = l.getLast?
  nodup : ∀ c, (L c).Nodup
  disjoint : ∀ c c' p, p ∈ L c → p ∈ L c' → c = c'
  allocated : ∀ c p, p ∈ L c → p ∈ box.allocated

theorem Linked.length_le {box : ParticlesBox D T α} {L : DataSpace D → List Ptr} (h : Linked box L) (c : DataSpace D) :
    (L c).length ≤ box.allocated.card := by
  rw [← List.toFinset_card_of_nodup (h.nodup c)]
  exact Finset.card_le_card fun p hp => h.allocated c p (List.mem_toFinset.mp hp)

theorem Linked.congr {box box' : ParticlesBox D T α} {L : DataSpace D → List Ptr} (h : Linked box L)
    (hfirst : box'.firstFramePtr = box.firstFramePtr) (hlast : box'.lastFramePtr = box.lastFramePtr)
    (hnext : ∀ c, ∀ p ∈ L c, box'.nextFrame p = box.nextFrame p)
    (hprevious : ∀ c, ∀ p ∈ L c, box'.previousFrame p = box.previousFrame p)
    (halloc : ∀ c, ∀ p ∈ L c, p ∈ box'.allocated) : Linked box' L where
  first c := by rw [hfirst, h.first]
  last c := by rw [hlast, h.last]
  next c l p r he := by rw [hnext c p (by simp [he]), h.next c l p r he]
  previous c l p r he := by rw [hprevious c p (by simp [he]), h.previous c l p r he]
  nodup := h.nodup
  disjoint := h.disjoint
  allocated := halloc

/-- The pointers determine the lists. -/
theorem Linked.unique {box : ParticlesBox D T α} {L L' : DataSpace D → List Ptr} (h : Linked box L)
    (h' : Linked box L') : L = L' := by
  have hsuffix : ∀ c l l' r r', L c = l ++ r → L' c = l' ++ r' → r.head? = r'.head? → r = r' := by
    intro c l l' r
    induction r generalizing l l' with
    | nil =>
      intro r' _ _ hh
      exact (List.head?_eq_none_iff.mp hh.symm).symm
    | cons p r ih =>
      intro r' hL hL' hh
      obtain ⟨r', rfl⟩ := List.head?_eq_some_iff.mp hh.symm
      have hnext : r.head? = r'.head? := (h.next c l p r hL).symm.trans (h'.next c l' p r' hL')
      rw [ih (l ++ [p]) (l' ++ [p]) r' (by simp [hL]) (by simp [hL']) hnext]
  funext c
  exact hsuffix c [] [] _ _ rfl rfl ((h.first c).symm.trans (h'.first c))

section Fields

variable (box : ParticlesBox D T α) (frame : Ptr) (idx : DataSpace D)

@[simp] theorem setAsFirstFrame_multiMask : (box.setAsFirstFrame frame idx).multiMask = box.multiMask := by
  unfold setAsFirstFrame
  cases box.firstFramePtr idx <;> rfl

@[simp] theorem setAsFirstFrame_attributes :
    (box.setAsFirstFrame frame idx).attributes = box.attributes := by
  unfold setAsFirstFrame
  cases box.firstFramePtr idx <;> rfl

@[simp] theorem setAsFirstFrame_mustShift : (box.setAsFirstFrame frame idx).mustShift = box.mustShift := by
  unfold setAsFirstFrame
  cases box.firstFramePtr idx <;> rfl

@[simp] theorem setAsFirstFrame_sizeLastFrame :
    (box.setAsFirstFrame frame idx).sizeLastFrame = box.sizeLastFrame := by
  unfold setAsFirstFrame
  cases box.firstFramePtr idx <;> rfl

@[simp] theorem setAsFirstFrame_allocated : (box.setAsFirstFrame frame idx).allocated = box.allocated := by
  unfold setAsFirstFrame
  cases box.firstFramePtr idx <;> rfl

@[simp] theorem setAsFirstFrame_attempts : (box.setAsFirstFrame frame idx).attempts = box.attempts := by
  unfold setAsFirstFrame
  cases box.firstFramePtr idx <;> rfl

@[simp] theorem setAsLastFrame_multiMask : (box.setAsLastFrame frame idx).multiMask = box.multiMask := by
  unfold setAsLastFrame
  cases box.lastFramePtr idx <;> rfl

@[simp] theorem setAsLastFrame_attributes :
    (box.setAsLastFrame frame idx).attributes = box.attributes := by
  unfold setAsLastFrame
  cases box.lastFramePtr idx <;> rfl

@[simp] theorem setAsLastFrame_mustShift : (box.setAsLastFrame frame idx).mustShift = box.mustShift := by
  unfold setAsLastFrame
  cases box.lastFramePtr idx <;> rfl

@[simp] theorem setAsLastFrame_sizeLastFrame :
    (box.setAsLastFrame frame idx).sizeLastFrame = box.sizeLastFrame := by
  unfold setAsLastFrame
  cases box.lastFramePtr idx <;> rfl

@[simp] theorem setAsLastFrame_allocated : (box.setAsLastFrame frame idx).allocated = box.allocated := by
  unfold setAsLastFrame
  cases box.lastFramePtr idx <;> rfl

@[simp] theorem setAsLastFrame_attempts : (box.setAsLastFrame frame idx).attempts = box.attempts := by
  unfold setAsLastFrame
  cases box.lastFramePtr idx <;> rfl

end Fields

variable {box : ParticlesBox D T α} {L : DataSpace D → List Ptr} {p : Ptr} {c : DataSpace D}

theorem Linked.setAsFirstFrame (h : Linked box L) (hp : ∀ c, p ∉ L c) (hpa : p ∈ box.allocated)
    (c : DataSpace D) : Linked (box.setAsFirstFrame p c) (Function.update L c (p :: L c)) := by
  have hfirst := h.first c
  have hne : ∀ {c' x}, x ∈ L c' → x ≠ p := fun hx he => hp _ (he ▸ hx)
  have hnextp : (box.setAsFirstFrame p c).nextFrame p = (L c).head? := by
    unfold ParticlesBox.setAsFirstFrame
    rw [hfirst]
    cases (L c).head? <;> simp
  have hnext : ∀ {c' x}, x ∈ L c' → (box.setAsFirstFrame p c).nextFrame x = box.nextFrame x := by
    intro c' x hx
    unfold ParticlesBox.setAsFirstFrame
    cases box.firstFramePtr c <;> simp [Function.update_of_ne (hne hx)]
  have hprevp : (box.setAsFirstFrame p c).previousFrame p = none := by
    unfold ParticlesBox.setAsFirstFrame
    rw [hfirst]
    cases hh : (L c).head? with
    | none => simp
    | some q =>
      have hq : q ∈ L c := List.mem_of_head? hh
      simp [Function.update_of_ne (hne hq).symm]
  have hprev : ∀ {c' x}, x ∈ L c' → (L c).head? ≠ some x →
      (box.setAsFirstFrame p c).previousFrame x = box.previousFrame x := by
    intro c' x hx hhead
    unfold ParticlesBox.setAsFirstFrame
    rw [hfirst]
    cases hh : (L c).head? with
    | none => simp [Function.update_of_ne (hne hx)]
    | some q =>
      have hxq : x ≠ q := fun he => hhead (by rw [hh, he])
      simp [Function.update_of_ne (hne hx), Function.update_of_ne hxq]
  have hprevq : ∀ {q}, (L c).head? = some q → (box.setAsFirstFrame p c).previousFrame q = some p := by
    intro q hq
    unfold ParticlesBox.setAsFirstFrame
    rw [hfirst, hq]
    simp
  refine ⟨fun c' => ?_, fun c' => ?_, fun c' l x r he => ?_, fun c' l x r he => ?_, fun c' => ?_,
    fun c₁ c₂ x h₁ h₂ => ?_, fun c' x hx => ?_⟩
  · unfold ParticlesBox.setAsFirstFrame
    by_cases hc : c' = c
    · subst hc
      cases box.firstFramePtr c' <;> simp
    · cases box.firstFramePtr c <;> simp [Function.update_of_ne hc, h.first]
  · unfold ParticlesBox.setAsFirstFrame
    by_cases hc : c' = c
    · subst hc
      rw [hfirst]
      cases hL : L c' with
      | nil => simp
      | cons q r => simp [h.last, hL]
    · cases box.firstFramePtr c <;> simp [Function.update_of_ne hc, h.last]
  · by_cases hc : c' = c
    · subst hc
      rw [Function.update_self] at he
      cases l with
      | nil =>
        obtain ⟨rfl, rfl⟩ := List.cons.inj he
        exact hnextp
      | cons y l =>
        rw [List.cons_append] at he
        have he' := (List.cons.inj he).2
        rw [hnext (show x ∈ L c' by simp [he']), h.next c' l x r he']
    · rw [Function.update_of_ne hc] at he
      rw [hnext (show x ∈ L c' by simp [he]), h.next c' l x r he]
  · by_cases hc : c' = c
    · subst hc
      rw [Function.update_self] at he
      cases l with
      | nil =>
        obtain ⟨rfl, rfl⟩ := List.cons.inj he
        exact hprevp
      | cons y l =>
        rw [List.cons_append] at he
        obtain ⟨rfl, he'⟩ := List.cons.inj he
        cases l with
        | nil => exact hprevq (by simp [he'])
        | cons q l =>
          have hnd := h.nodup c'
          rw [he', List.cons_append] at hnd
          have hqx : (L c').head? ≠ some x := by
            rw [he']
            intro hh
            obtain rfl : q = x := by simpa using hh
            simp at hnd
          rw [hprev (show x ∈ L c' by simp [he']) hqx, h.previous c' (q :: l) x r he']
          simp
    · rw [Function.update_of_ne hc] at he
      have hx : x ∈ L c' := by simp [he]
      rw [hprev hx, h.previous c' l x r he]
      exact fun hh => hc (h.disjoint c' c x hx (List.mem_of_head? hh))
  · by_cases hc : c' = c
    · subst hc
      rw [Function.update_self]
      exact List.nodup_cons.mpr ⟨hp c', h.nodup c'⟩
    · rw [Function.update_of_ne hc]
      exact h.nodup c'
  · have hmem : ∀ {c'}, x ∈ Function.update L c (p :: L c) c' → (x = p ∧ c' = c) ∨ x ∈ L c' := by
      intro c' hx
      by_cases hc : c' = c
      · subst hc
        rw [Function.update_self] at hx
        exact (List.mem_cons.mp hx).imp (fun h => ⟨h, rfl⟩) id
      · rw [Function.update_of_ne hc] at hx
        exact .inr hx
    rcases hmem h₁ with ⟨e₁, rfl⟩ | m₁ <;> rcases hmem h₂ with ⟨e₂, rfl⟩ | m₂
    · rfl
    · exact absurd e₁ (hne m₂)
    · exact absurd e₂ (hne m₁)
    · exact h.disjoint c₁ c₂ x m₁ m₂
  · rw [setAsFirstFrame_allocated]
    by_cases hc : c' = c
    · subst hc
      rw [Function.update_self] at hx
      rcases List.mem_cons.mp hx with rfl | hx
      · exact hpa
      · exact h.allocated c' x hx
    · rw [Function.update_of_ne hc] at hx
      exact h.allocated c' x hx

/-- The same memory with both directions of every list exchanged. -/
def mirror (box : ParticlesBox D T α) : ParticlesBox D T α :=
  { box with
    previousFrame := box.nextFrame
    nextFrame := box.previousFrame
    firstFramePtr := box.lastFramePtr
    lastFramePtr := box.firstFramePtr }

theorem Linked.mirror (h : Linked box L) : Linked box.mirror fun c => (L c).reverse where
  first c := by simpa [ParticlesBox.mirror] using h.last c
  last c := by simpa [ParticlesBox.mirror] using h.first c
  next c l x r he := by
    have he' : L c = r.reverse ++ x :: l.reverse := by
      rw [← List.reverse_reverse (L c), he]
      simp
    simpa [ParticlesBox.mirror] using h.previous c _ x _ he'
  previous c l x r he := by
    have he' : L c = r.reverse ++ x :: l.reverse := by
      rw [← List.reverse_reverse (L c), he]
      simp
    simpa [ParticlesBox.mirror] using h.next c _ x _ he'
  nodup c := List.nodup_reverse.mpr (h.nodup c)
  disjoint c c' x hx hx' := h.disjoint c c' x (List.mem_reverse.mp hx) (List.mem_reverse.mp hx')
  allocated c x hx := h.allocated c x (List.mem_reverse.mp hx)

theorem mirror_setAsFirstFrame (box : ParticlesBox D T α) (p : Ptr) (c : DataSpace D) :
    (box.mirror.setAsFirstFrame p c).mirror = box.setAsLastFrame p c := by
  simp only [setAsFirstFrame, setAsLastFrame, mirror]
  cases box.lastFramePtr c <;> rfl

theorem Linked.setAsLastFrame (h : Linked box L) (hp : ∀ c, p ∉ L c) (hpa : p ∈ box.allocated)
    (c : DataSpace D) : Linked (box.setAsLastFrame p c) (Function.update L c (L c ++ [p])) := by
  have hm := (h.mirror.setAsFirstFrame (fun c hc => hp c (List.mem_reverse.mp hc)) hpa c).mirror
  rw [mirror_setAsFirstFrame] at hm
  convert hm using 1
  funext c'
  by_cases hc : c' = c
  · subst hc
    simp
  · simp [Function.update_of_ne hc]

theorem Linked.removeLastFrame (h : Linked box L) {l : List Ptr} (hL : L c = l ++ [p]) :
    ((box.removeLastFrame c).1 = true ↔ l ≠ []) ∧
      Linked (box.removeLastFrame c).2 (Function.update L c l) := by
  have hlast : box.lastFramePtr c = some p := by simp [h.last, hL]
  have hprev : box.previousFrame p = l.getLast? := h.previous c l p [] hL
  have hnd := h.nodup c
  rw [hL] at hnd
  have hpl : p ∉ l := fun hp => (List.nodup_append.mp hnd).2.2 p hp p (by simp) rfl
  have hsub : ∀ {c' x}, x ∈ Function.update L c l c' → x ∈ L c' ∧ x ≠ p := by
    intro c' x hx
    by_cases hc : c' = c
    · subst hc
      rw [Function.update_self] at hx
      exact ⟨by simp [hL, hx], fun he => hpl (he ▸ hx)⟩
    · rw [Function.update_of_ne hc] at hx
      refine ⟨hx, ?_⟩
      rintro rfl
      exact hc (h.disjoint c' c x hx (by simp [hL]))
  have hnodup : ∀ c', (Function.update L c l c').Nodup := by
    intro c'
    by_cases hc : c' = c
    · subst hc
      rw [Function.update_self]
      exact (List.nodup_append.mp hnd).1
    · rw [Function.update_of_ne hc]
      exact h.nodup c'
  have hdisjoint : ∀ c₁ c₂ x, x ∈ Function.update L c l c₁ → x ∈ Function.update L c l c₂ → c₁ = c₂ :=
    fun c₁ c₂ x h₁ h₂ => h.disjoint c₁ c₂ x (hsub h₁).1 (hsub h₂).1
  have hext : ∀ {c' a x r}, Function.update L c l c' = a ++ x :: r →
      (c' ≠ c ∧ L c' = a ++ x :: r) ∨ (c' = c ∧ L c' = a ++ x :: (r ++ [p])) := by
    intro c' a x r he
    by_cases hc : c' = c
    · subst hc
      rw [Function.update_self] at he
      exact .inr ⟨rfl, by simp [hL, he]⟩
    · rw [Function.update_of_ne hc] at he
      exact .inl ⟨hc, he⟩
  cases hq : l.getLast? with
  | none =>
    obtain rfl : l = [] := List.getLast?_eq_none_iff.mp hq
    have hbox : box.removeLastFrame c = (false, { box with
        firstFramePtr := Function.update box.firstFramePtr c none
        lastFramePtr := Function.update box.lastFramePtr c none
        allocated := box.allocated.erase p }) := by
      simp [ParticlesBox.removeLastFrame, hlast, hprev]
    rw [hbox]
    refine ⟨by simp, fun c' => ?_, fun c' => ?_, fun c' a x r he => ?_, fun c' a x r he => ?_, hnodup,
      hdisjoint, fun c' x hx => ?_⟩
    · by_cases hc : c' = c
      · subst hc
        simp
      · simp [Function.update_of_ne hc, h.first]
    · by_cases hc : c' = c
      · subst hc
        simp
      · simp [Function.update_of_ne hc, h.last]
    · rcases hext he with ⟨-, he⟩ | ⟨rfl, -⟩
      · exact h.next c' a x r he
      · simp at he
    · rcases hext he with ⟨-, he⟩ | ⟨rfl, -⟩
      · exact h.previous c' a x r he
      · simp at he
    · exact Finset.mem_erase.mpr ⟨(hsub hx).2, h.allocated c' x (hsub hx).1⟩
  | some q =>
    obtain ⟨l, rfl⟩ : ∃ l', l = l' ++ [q] := List.getLast?_eq_some_iff.mp hq
    have hbox : box.removeLastFrame c = (true, { box with
        nextFrame := Function.update box.nextFrame q none
        lastFramePtr := Function.update box.lastFramePtr c (some q)
        allocated := box.allocated.erase p }) := by
      simp [ParticlesBox.removeLastFrame, hlast, hprev]
    rw [hbox]
    refine ⟨by simp, fun c' => ?_, fun c' => ?_, fun c' a x r he => ?_, fun c' a x r he => ?_, hnodup,
      hdisjoint, fun c' x hx => ?_⟩
    · by_cases hc : c' = c
      · subst hc
        simp only [h.first, hL, Function.update_self]
        cases l <;> simp
      · simp [Function.update_of_ne hc, h.first]
    · by_cases hc : c' = c
      · subst hc
        simp
      · simp [Function.update_of_ne hc, h.last]
    · rcases hext he with ⟨hc, he'⟩ | ⟨rfl, he'⟩
      · have hxq : x ≠ q := by
          rintro rfl
          exact hc (h.disjoint c' c x (by simp [he']) (by simp [hL]))
        simp only [Function.update_of_ne hxq]
        exact h.next c' a x r he'
      · rw [Function.update_self] at he
        cases hr : r with
        | nil =>
          rw [hr] at he
          obtain ⟨-, hx⟩ := List.append_inj' he rfl
          obtain rfl : q = x := by simpa using hx
          simp
        | cons y r' =>
          have hxq : x ≠ q := by
            rintro rfl
            have hnd' := hnodup c'
            rw [Function.update_self, he, hr] at hnd'
            have hlast : (y :: r').getLast? = some x := by
              have := congrArg List.getLast? he
              rw [hr] at this
              simpa [List.getLast?_append] using this.symm
            have := (List.nodup_cons.mp (List.nodup_append.mp hnd').2.1).1
            exact this (List.mem_of_getLast? hlast)
          simp only [Function.update_of_ne hxq]
          rw [h.next c' a x (r ++ [p]) he', hr]
          rfl
    · rcases hext he with ⟨-, he'⟩ | ⟨rfl, he'⟩
      · exact h.previous c' a x r he'
      · exact h.previous c' a x (r ++ [p]) he'
    · exact Finset.mem_erase.mpr ⟨(hsub hx).2, h.allocated c' x (hsub hx).1⟩

theorem Linked.removeLastFrame_allocated (h : Linked box L) {l : List Ptr} (hL : L c = l ++ [p]) :
    (box.removeLastFrame c).2.allocated = box.allocated.erase p := by
  have hlast : box.lastFramePtr c = some p := by simp [h.last, hL]
  unfold ParticlesBox.removeLastFrame
  rw [hlast]
  cases hp : box.previousFrame p <;> simp [hp]

section Fields

variable (box : ParticlesBox D T α) (idx : DataSpace D)

@[simp] theorem removeLastFrame_multiMask : (box.removeLastFrame idx).2.multiMask = box.multiMask := by
  unfold removeLastFrame
  split
  · rfl
  · split <;> rfl

@[simp] theorem removeLastFrame_attributes : (box.removeLastFrame idx).2.attributes = box.attributes := by
  unfold removeLastFrame
  split
  · rfl
  · split <;> rfl

@[simp] theorem removeLastFrame_mustShift : (box.removeLastFrame idx).2.mustShift = box.mustShift := by
  unfold removeLastFrame
  split
  · rfl
  · split <;> rfl

@[simp] theorem removeLastFrame_sizeLastFrame :
    (box.removeLastFrame idx).2.sizeLastFrame = box.sizeLastFrame := by
  unfold removeLastFrame
  split
  · rfl
  · split <;> rfl

@[simp] theorem removeLastFrame_attempts : (box.removeLastFrame idx).2.attempts = box.attempts := by
  unfold removeLastFrame
  split
  · rfl
  · split <;> rfl

end Fields

/-- What a number of allocation attempts does to memory: only frames that were free before are
touched, and the frame of the last attempt, if there is one, is empty. -/
structure Allocation (box : ParticlesBox D T α) (result : Option Ptr) (box' : ParticlesBox D T α) : Prop where
  attributes : box'.attributes = box.attributes
  previousFrame : box'.previousFrame = box.previousFrame
  nextFrame : box'.nextFrame = box.nextFrame
  firstFramePtr : box'.firstFramePtr = box.firstFramePtr
  lastFramePtr : box'.lastFramePtr = box.lastFramePtr
  mustShift : box'.mustShift = box.mustShift
  sizeLastFrame : box'.sizeLastFrame = box.sizeLastFrame
  subset : box.allocated ⊆ box'.allocated
  multiMask : ∀ q ∈ box.allocated, box'.multiMask q = box.multiMask q
  fresh : ∀ p, result = some p → p ∉ box.allocated ∧ p ∈ box'.allocated ∧ box'.multiMask p = fun _ => 0

theorem allocation_foldl (M : MallocMC) (box : ParticlesBox D T α) (l : List ℕ) :
    Allocation box (l.foldl (tryMalloc M) (none, box)).1 (l.foldl (tryMalloc M) (none, box)).2 := by
  induction l using List.reverseRecOn with
  | nil =>
    exact ⟨rfl, rfl, rfl, rfl, rfl, rfl, rfl, subset_rfl, fun _ _ => rfl, fun p hp => by simp at hp⟩
  | append_singleton l n ih =>
    rw [List.foldl_append, List.foldl_cons, List.foldl_nil]
    generalize l.foldl (tryMalloc M) (none, box) = st at ih
    unfold tryMalloc
    cases hm : M.malloc st.2.attempts st.2.allocated with
    | none =>
      exact ⟨ih.attributes, ih.previousFrame, ih.nextFrame, ih.firstFramePtr, ih.lastFramePtr,
        ih.mustShift, ih.sizeLastFrame, ih.subset, ih.multiMask, fun p hp => by simp at hp⟩
    | some q =>
      have hq := M.fresh _ _ _ hm
      have hq' : q ∉ box.allocated := fun h => hq (ih.subset h)
      refine ⟨ih.attributes, ih.previousFrame, ih.nextFrame, ih.firstFramePtr, ih.lastFramePtr,
        ih.mustShift, ih.sizeLastFrame, ih.subset.trans (Finset.subset_insert _ _), fun x hx => ?_,
        fun p hp => ?_⟩
      · have hne : x ≠ q := fun he => hq' (he ▸ hx)
        simp only [Function.update_of_ne hne]
        exact ih.multiMask x hx
      · obtain rfl : q = p := by simpa using hp
        exact ⟨hq', Finset.mem_insert_self _ _, by simp⟩

theorem getEmptyFrame_allocation (M : MallocMC) (box : ParticlesBox D T α) :
    Allocation box (box.getEmptyFrame M).1 (box.getEmptyFrame M).2 :=
  allocation_foldl M box _

theorem foldl_tryMalloc_attempts (M : MallocMC) (box : ParticlesBox D T α) (l : List ℕ) :
    (l.foldl (tryMalloc M) (none, box)).2.attempts = box.attempts + l.length := by
  induction l using List.reverseRecOn with
  | nil => rfl
  | append_singleton l n ih =>
    rw [List.foldl_append, List.foldl_cons, List.foldl_nil, List.length_append, List.length_singleton,
      ← Nat.add_assoc, ← ih]
    unfold tryMalloc
    cases M.malloc _ _ <;> rfl

theorem getEmptyFrame_attempts (M : MallocMC) (box : ParticlesBox D T α) :
    (box.getEmptyFrame M).2.attempts = box.attempts + maxTries := by
  rw [getEmptyFrame, foldl_tryMalloc_attempts, List.length_range]

theorem getEmptyFrame_eq_tryMalloc (M : MallocMC) (box : ParticlesBox D T α) :
    box.getEmptyFrame M = tryMalloc M ((List.range (maxTries - 1)).foldl (tryMalloc M) (none, box)) (maxTries - 1) := by
  have hsplit : List.range maxTries = List.range (maxTries - 1) ++ [maxTries - 1] := rfl
  rw [getEmptyFrame, hsplit, List.foldl_append, List.foldl_cons, List.foldl_nil]

/-- The frame is valid if the last attempt succeeds. -/
theorem getEmptyFrame_isSome_of (M : MallocMC) (box : ParticlesBox D T α)
    (h : ∀ A, (M.malloc (box.attempts + 12) A).isSome = true) : ∃ p, (box.getEmptyFrame M).1 = some p := by
  have hatt := foldl_tryMalloc_attempts M box (List.range (maxTries - 1))
  rw [List.length_range] at hatt
  rw [getEmptyFrame_eq_tryMalloc]
  generalize (List.range (maxTries - 1)).foldl (tryMalloc M) (none, box) = st at hatt
  obtain ⟨p, hp⟩ := Option.isSome_iff_exists.mp (h st.2.allocated)
  exact ⟨p, by simp [tryMalloc, hatt, maxTries, hp]⟩

theorem foldl_tryMalloc_of_none {M : MallocMC} (box : ParticlesBox D T α) (l : List ℕ)
    (h : ∀ i < l.length, M.malloc (box.attempts + i) box.allocated = none) :
    l.foldl (tryMalloc M) (none, box) = (none, { box with attempts := box.attempts + l.length }) := by
  induction l using List.reverseRecOn with
  | nil => rfl
  | append_singleton l n ih =>
    rw [List.length_append, List.length_singleton] at h
    rw [List.foldl_append, ih fun i hi => h i (by omega), List.foldl_cons, List.foldl_nil, tryMalloc]
    dsimp only
    rw [h l.length (by omega)]
    simp [Nat.add_assoc]

/-- No attempt of the next call but the last one gets a frame. -/
def LastTryOnly (M : MallocMC) (box : ParticlesBox D T α) : Prop :=
  ∀ numTries, numTries + 1 < maxTries → M.malloc (box.attempts + numTries) box.allocated = none

theorem LastTryOnly.allocated_eq {M : MallocMC} {box : ParticlesBox D T α} (h : LastTryOnly M box) :
    (box.getEmptyFrame M).2.allocated =
      (box.getEmptyFrame M).1.elim box.allocated fun p => insert p box.allocated := by
  have hfirst := foldl_tryMalloc_of_none box (List.range (maxTries - 1)) fun i hi => h i (by
    rw [List.length_range] at hi
    omega)
  rw [getEmptyFrame_eq_tryMalloc, hfirst, List.length_range]
  unfold tryMalloc
  dsimp only
  cases M.malloc (box.attempts + (maxTries - 1)) box.allocated <;> rfl

/-- Attempts with number `r` modulo 13 succeed. -/
def MallocMC.Serves (M : MallocMC) (r : ℕ) : Prop :=
  ∀ k A, k % maxTries = r → (M.malloc k A).isSome = true

/-- No other attempt does. -/
def MallocMC.ServesOnly (M : MallocMC) (r : ℕ) : Prop := ∀ k A, k % maxTries ≠ r → M.malloc k A = none

theorem lastTryOnly_of_servesOnly {M : MallocMC} {r : ℕ} (hM : MallocMC.ServesOnly M r) {box : ParticlesBox D T α}
    (hr : (box.attempts + 12) % maxTries = r) : LastTryOnly M box := by
  intro numTries hlt
  refine hM _ _ ?_
  simp only [maxTries] at hr hlt ⊢
  omega

theorem getEmptyFrame_attempts_mod {M : MallocMC} {r : ℕ} {box : ParticlesBox D T α}
    (hr : (box.attempts + 12) % maxTries = r) : ((box.getEmptyFrame M).2.attempts + 12) % maxTries = r := by
  rw [getEmptyFrame_attempts]
  simp only [maxTries] at hr ⊢
  omega

/-- A call whose last attempt succeeds returns an empty frame, and it adds no other frame if the
attempts before fail. -/
theorem getEmptyFrame_spec {M : MallocMC} {r : ℕ} (hM : MallocMC.Serves M r) {box : ParticlesBox D T α}
    (hr : (box.attempts + 12) % maxTries = r) :
    ∃ p box', box.getEmptyFrame M = (some p, box') ∧ Allocation box (some p) box' ∧
      (box'.attempts + 12) % maxTries = r ∧
      (MallocMC.ServesOnly M r → box'.allocated = insert p box.allocated) := by
  obtain ⟨p, hp⟩ := getEmptyFrame_isSome_of M box fun A => hM _ A hr
  have halloc := getEmptyFrame_allocation M box
  rw [hp] at halloc
  refine ⟨p, (box.getEmptyFrame M).2, by rw [← hp], halloc, getEmptyFrame_attempts_mod hr, fun honly => ?_⟩
  rw [(lastTryOnly_of_servesOnly honly hr).allocated_eq, hp, Option.elim_some]

theorem Allocation.linked {box' : ParticlesBox D T α} {result : Option Ptr} (h : Allocation box result box')
    (hL : Linked box L) : Linked box' L :=
  hL.congr h.firstFramePtr h.lastFramePtr (fun _ _ _ => by rw [h.nextFrame])
    (fun _ _ _ => by rw [h.previousFrame]) fun c p hp => h.subset (hL.allocated c p hp)

end ParticlesBox

end PIConGPU
