import PIConGPU.ParticlesBox

/-!
# Appending frames at the same time

Threads of several blocks append frames to the list of one supercell. Every read, write and atomic exchange
of a pointer is a step of its own. Between the exchange and the link of a thread the list is broken at its
frame; the order of the exchanges is the order of the frames.
-/
namespace PIConGPU

namespace ParticlesBox

variable {D T : ℕ} {α : Type*}

/-- As `Linked`, but the frames in `unlinked` need not be pointed to from the front, and the previous frame
of those in `unset` may be wrong. -/
structure LinkedExcept (box : ParticlesBox D T α) (L : DataSpace D → List Ptr) (unlinked unset : Set Ptr) :
    Prop where
  first : ∀ c, (∀ q ∈ (L c).head?, q ∉ unlinked) → box.firstFramePtr c = (L c).head?
  last : ∀ c, box.lastFramePtr c = (L c).getLast?
  next : ∀ c l p r, L c = l ++ p :: r → (∀ q ∈ r.head?, q ∉ unlinked) → box.nextFrame p = r.head?
  previous : ∀ c l p r, L c = l ++ p :: r → p ∉ unset → box.previousFrame p = l.getLast?
  nodup : ∀ c, (L c).Nodup
  disjoint : ∀ c c' p, p ∈ L c → p ∈ L c' → c = c'
  allocated : ∀ c p, p ∈ L c → p ∈ box.allocated

variable {box box' : ParticlesBox D T α} {L : DataSpace D → List Ptr} {unlinked unset : Set Ptr}
  {c : DataSpace D} {p : Ptr} {l r : List Ptr}

theorem Linked.linkedExcept (h : Linked box L) : LinkedExcept box L ∅ ∅ where
  first c _ := h.first c
  last := h.last
  next c l p r he _ := h.next c l p r he
  previous c l p r he _ := h.previous c l p r he
  nodup := h.nodup
  disjoint := h.disjoint
  allocated := h.allocated

theorem LinkedExcept.linked (h : LinkedExcept box L unlinked unset) (h1 : ∀ c, ∀ p ∈ L c, p ∉ unlinked)
    (h2 : ∀ c, ∀ p ∈ L c, p ∉ unset) : Linked box L where
  first c := h.first c fun q hq => h1 c q (List.mem_of_head? hq)
  last := h.last
  next c l p r he := h.next c l p r he fun q hq => h1 c q (by
    have := List.mem_of_head? hq
    simp [he, this])
  previous c l p r he := h.previous c l p r he (h2 c p (by simp [he]))
  nodup := h.nodup
  disjoint := h.disjoint
  allocated := h.allocated

theorem LinkedExcept.mono {unlinked' unset' : Set Ptr} (h : LinkedExcept box L unlinked unset)
    (h1 : unlinked ⊆ unlinked') (h2 : unset ⊆ unset') : LinkedExcept box L unlinked' unset' where
  first c hq := h.first c fun q hq' hq'' => hq q hq' (h1 hq'')
  last := h.last
  next c l p r he hq := h.next c l p r he fun q hq' hq'' => hq q hq' (h1 hq'')
  previous c l p r he hp := h.previous c l p r he fun hp' => hp (h2 hp')
  nodup := h.nodup
  disjoint := h.disjoint
  allocated := h.allocated

theorem LinkedExcept.congr (h : LinkedExcept box L unlinked unset) (hfirst : box'.firstFramePtr = box.firstFramePtr)
    (hlast : box'.lastFramePtr = box.lastFramePtr) (hnext : ∀ c, ∀ p ∈ L c, box'.nextFrame p = box.nextFrame p)
    (hprevious : ∀ c, ∀ p ∈ L c, box'.previousFrame p = box.previousFrame p)
    (halloc : ∀ c, ∀ p ∈ L c, p ∈ box'.allocated) : LinkedExcept box' L unlinked unset where
  first c hq := by rw [hfirst, h.first c hq]
  last c := by rw [hlast, h.last]
  next c l p r he hq := by rw [hnext c p (by simp [he]), h.next c l p r he hq]
  previous c l p r he hp := by rw [hprevious c p (by simp [he]), h.previous c l p r he hp]
  nodup := h.nodup
  disjoint := h.disjoint
  allocated := halloc

/-- A frame has one place in the lists. -/
theorem LinkedExcept.place (h : LinkedExcept box L unlinked unset) {c' : DataSpace D} {l' r' : List Ptr}
    (he : L c = l ++ p :: r) (he' : L c' = l' ++ p :: r') : c' = c ∧ l' = l ∧ r' = r := by
  obtain rfl : c' = c := h.disjoint c' c p (by simp [he']) (by simp [he])
  have hnd := h.nodup c'
  rw [he] at hnd
  obtain ⟨-, hpr, hdisj⟩ := List.nodup_append.mp hnd
  have hl : p ∉ l := fun hp => hdisj p hp p (by simp) rfl
  obtain ⟨rfl, -, rfl⟩ := (List.append_cons_inj_of_notMem hl (List.nodup_cons.mp hpr).1).mp (he.symm.trans he')
  exact ⟨rfl, rfl, rfl⟩

/-- The exchange puts a frame at the end of the list. -/
theorem LinkedExcept.append (h : LinkedExcept box L unlinked unset) (hp : ∀ c, p ∉ L c) (hpa : p ∈ box.allocated)
    (hnext : box.nextFrame p = none) (c : DataSpace D) :
    LinkedExcept { box with lastFramePtr := Function.update box.lastFramePtr c (some p) }
      (Function.update L c (L c ++ [p])) (insert p unlinked) (insert p unset) := by
  have hsplit : ∀ {c' l x r}, Function.update L c (L c ++ [p]) c' = l ++ x :: r →
      (c' = c ∧ x = p ∧ r = [] ∧ l = L c) ∨ (c' = c ∧ ∃ r', r = r' ++ [p] ∧ L c = l ++ x :: r') ∨
        (c' ≠ c ∧ L c' = l ++ x :: r) := by
    intro c' l x r he
    by_cases hc : c' = c
    · subst hc
      rw [Function.update_self] at he
      rcases List.eq_nil_or_concat r with rfl | ⟨r', y, hr⟩
      · obtain ⟨h1, h2⟩ := List.append_inj' he rfl
        exact .inl ⟨rfl, by simpa using h2.symm, rfl, h1.symm⟩
      · rw [List.concat_eq_append] at hr
        rw [hr, ← List.cons_append, ← List.append_assoc] at he
        obtain ⟨h1, h2⟩ := List.append_inj' he rfl
        obtain rfl : p = y := by simpa using h2
        exact .inr (.inl ⟨rfl, r', hr, h1⟩)
    · rw [Function.update_of_ne hc] at he
      exact .inr (.inr ⟨hc, he⟩)
  refine ⟨fun c' hq => ?_, fun c' => ?_, fun c' l x r he hq => ?_, fun c' l x r he hx => ?_, fun c' => ?_,
    fun c₁ c₂ x h₁ h₂ => ?_, fun c' x hx => ?_⟩
  · by_cases hc : c' = c
    · subst hc
      rw [Function.update_self] at hq ⊢
      cases hL : L c' with
      | nil => exact absurd (Set.mem_insert p _) (hq p (by simp [hL]))
      | cons y r =>
        rw [hL] at hq
        have hy : y ∉ insert p unlinked := hq y (by simp)
        have := h.first c' (by simpa [hL] using fun hy' => hy (Set.mem_insert_of_mem _ hy'))
        simpa [hL] using this
    · rw [Function.update_of_ne hc] at hq ⊢
      exact h.first c' fun q hq' hq'' => hq q hq' (Set.mem_insert_of_mem _ hq'')
  · by_cases hc : c' = c
    · subst hc
      simp
    · simp [Function.update_of_ne hc, h.last]
  · rcases hsplit he with ⟨-, rfl, rfl, -⟩ | ⟨rfl, r', rfl, he'⟩ | ⟨-, he'⟩
    · exact hnext
    · cases r' with
      | nil => exact absurd (Set.mem_insert p _) (hq p (by simp))
      | cons y r' =>
        have hy : y ∉ insert p unlinked := hq y (by simp)
        exact h.next c' l x (y :: r') he' (by simpa using fun hy' => hy (Set.mem_insert_of_mem _ hy'))
    · exact h.next c' l x r he' fun q hq' hq'' => hq q hq' (Set.mem_insert_of_mem _ hq'')
  · have hx' : x ∉ unset := fun hx' => hx (Set.mem_insert_of_mem _ hx')
    rcases hsplit he with ⟨-, rfl, -, -⟩ | ⟨rfl, r', rfl, he'⟩ | ⟨-, he'⟩
    · exact absurd (Set.mem_insert _ _) hx
    · exact h.previous c' l x r' he' hx'
    · exact h.previous c' l x r he' hx'
  · by_cases hc : c' = c
    · subst hc
      rw [Function.update_self]
      exact List.nodup_append.mpr ⟨h.nodup c', by simp, fun a ha b hb hab => hp c' (by
        obtain rfl : b = p := by simpa using hb
        exact hab ▸ ha)⟩
    · rw [Function.update_of_ne hc]
      exact h.nodup c'
  · have hmem : ∀ {c'}, x ∈ Function.update L c (L c ++ [p]) c' → (x = p ∧ c' = c) ∨ x ∈ L c' := by
      intro c' hx
      by_cases hc : c' = c
      · subst hc
        rw [Function.update_self, List.mem_append, List.mem_singleton] at hx
        exact hx.symm.imp (fun h => ⟨h, rfl⟩) id
      · rw [Function.update_of_ne hc] at hx
        exact .inr hx
    rcases hmem h₁ with ⟨e₁, rfl⟩ | m₁ <;> rcases hmem h₂ with ⟨e₂, rfl⟩ | m₂
    · rfl
    · exact absurd (e₁ ▸ m₂) (hp c₂)
    · exact absurd (e₂ ▸ m₁) (hp c₁)
    · exact h.disjoint c₁ c₂ x m₁ m₂
  · by_cases hc : c' = c
    · subst hc
      rw [Function.update_self, List.mem_append, List.mem_singleton] at hx
      rcases hx with hx | rfl
      · exact h.allocated c' x hx
      · exact hpa
    · rw [Function.update_of_ne hc] at hx
      exact h.allocated c' x hx

theorem LinkedExcept.setPrevious (h : LinkedExcept box L unlinked unset) (he : L c = l ++ p :: r) :
    LinkedExcept { box with previousFrame := Function.update box.previousFrame p l.getLast? } L unlinked
      (unset \ {p}) where
  first := h.first
  last := h.last
  next := h.next
  previous c' l' x r' he' hx := by
    by_cases hxp : x = p
    · subst hxp
      obtain ⟨-, rfl, -⟩ := h.place he he'
      simp
    · simp only [Function.update_of_ne hxp]
      exact h.previous c' l' x r' he' fun hx' => hx ⟨hx', hxp⟩
  nodup := h.nodup
  disjoint := h.disjoint
  allocated := h.allocated

def setNext (box : ParticlesBox D T α) (idx : DataSpace D) (old : Option Ptr) (frame : Ptr) : ParticlesBox D T α :=
  match old with
  | some old => { box with nextFrame := Function.update box.nextFrame old (some frame) }
  | none => { box with firstFramePtr := Function.update box.firstFramePtr idx (some frame) }

theorem LinkedExcept.setNext (h : LinkedExcept box L unlinked unset) (he : L c = l ++ p :: r) :
    LinkedExcept (box.setNext c l.getLast? p) L (unlinked \ {p}) unset := by
  have hnot : ∀ {x}, x ≠ p → x ∉ unlinked \ {p} → x ∉ unlinked := fun hx hx' hx'' => hx' ⟨hx'', hx⟩
  rcases List.eq_nil_or_concat l with rfl | ⟨l₀, q, hl⟩
  · refine ⟨fun c' hq => ?_, h.last, fun c' l' x r' he' hq => h.next c' l' x r' he' fun y hy => ?_, h.previous,
      h.nodup, h.disjoint, h.allocated⟩
    · by_cases hc : c' = c
      · subst hc
        simp [ParticlesBox.setNext, he]
      · simp only [ParticlesBox.setNext, List.getLast?_nil, Function.update_of_ne hc]
        refine h.first c' fun y hy => hnot ?_ (hq y hy)
        rintro rfl
        exact hc (h.disjoint c' c y (List.mem_of_head? hy) (by simp [he]))
    · refine hnot ?_ (hq y hy)
      rintro rfl
      obtain ⟨r'', rfl⟩ : ∃ r'', r' = y :: r'' := List.head?_eq_some_iff.mp hy
      have := (h.place he (show L c' = (l' ++ [x]) ++ y :: r'' by simp [he'])).2.1
      simp at this
  · rw [List.concat_eq_append] at hl
    subst hl
    have hbox : box.setNext c (l₀ ++ [q]).getLast? p =
        { box with nextFrame := Function.update box.nextFrame q (some p) } := by
      simp [ParticlesBox.setNext]
    rw [hbox]
    have heq : L c = l₀ ++ q :: (p :: r) := by simp [he]
    refine ⟨fun c' hq => h.first c' fun y hy => ?_, h.last, fun c' l' x r' he' hq => ?_, h.previous, h.nodup,
      h.disjoint, h.allocated⟩
    · refine hnot ?_ (hq y hy)
      rintro rfl
      obtain ⟨r'', hr''⟩ : ∃ r'', L c' = y :: r'' := List.head?_eq_some_iff.mp hy
      have := (h.place he (show L c' = [] ++ y :: r'' by simp [hr''])).2.1
      simp at this
    · by_cases hxq : x = q
      · subst hxq
        obtain ⟨-, -, rfl⟩ := h.place heq he'
        simp
      · simp only [Function.update_of_ne hxq]
        refine h.next c' l' x r' he' fun y hy => hnot ?_ (hq y hy)
        rintro rfl
        obtain ⟨r'', rfl⟩ : ∃ r'', r' = y :: r'' := List.head?_eq_some_iff.mp hy
        have hl' := (h.place he (show L c' = (l' ++ [x]) ++ y :: r'' by simp [he'])).2.1
        exact hxq (by simpa using (List.append_inj' hl' rfl).2)

end ParticlesBox

open ParticlesBox

variable {D T : ℕ} {α ι : Type*} [DecidableEq ι]

/-- What a thread does next. The pointer that leads out of the list is set to null first, the one that leads
into it is written twice. -/
inductive AppendPhase
  | clear
  | read
  | write (neighbor : Option Ptr)
  | exchange
  | writeOld (old : Option Ptr)
  | link (old : Option Ptr)
  | returned
  deriving DecidableEq

namespace AppendPhase

def Cleared : AppendPhase → Prop
  | read | write _ | exchange => True
  | _ => False

def Exchanged : AppendPhase → Prop
  | writeOld _ | link _ | returned => True
  | _ => False

def Unlinked : AppendPhase → Prop
  | writeOld _ | link _ => True
  | _ => False

def Unset : AppendPhase → Prop
  | writeOld _ => True
  | _ => False

theorem Cleared.not_exchanged {phase : AppendPhase} (h : phase.Cleared) : ¬phase.Exchanged := by
  cases phase with
  | read | write | exchange => exact fun h => h
  | _ => exact h.elim

end AppendPhase

/-- The memory, the threads, and the threads in the order of their exchanges so far. -/
structure AppendState (D T : ℕ) (α ι : Type*) where
  box : ParticlesBox D T α
  phase : ι → AppendPhase
  exchanged : List ι

namespace AppendState

def start (box : ParticlesBox D T α) : AppendState D T α ι := ⟨box, fun _ => .clear, []⟩

def go (s : AppendState D T α ι) (t : ι) (box : ParticlesBox D T α) (phase : AppendPhase) : AppendState D T α ι :=
  { s with box := box, phase := Function.update s.phase t phase }

def mirror (s : AppendState D T α ι) : AppendState D T α ι := { s with box := s.box.mirror }

end AppendState

variable (frame : ι → Ptr) (idx : DataSpace D)

namespace SetAsLastFrame

def step (s : AppendState D T α ι) (t : ι) : Option (AppendState D T α ι) :=
  match s.phase t with
  | .clear => some (s.go t { s.box with nextFrame := Function.update s.box.nextFrame (frame t) none } .read)
  | .read => some (s.go t s.box (.write (s.box.lastFramePtr idx)))
  | .write last =>
      some (s.go t { s.box with previousFrame := Function.update s.box.previousFrame (frame t) last } .exchange)
  | .exchange => some { s.go t { s.box with lastFramePtr := Function.update s.box.lastFramePtr idx (some (frame t)) }
      (.writeOld (s.box.lastFramePtr idx)) with exchanged := s.exchanged ++ [t] }
  | .writeOld old =>
      some (s.go t { s.box with previousFrame := Function.update s.box.previousFrame (frame t) old } (.link old))
  | .link old => some (s.go t (s.box.setNext idx old (frame t)) .returned)
  | .returned => none

variable {frame idx}

/-- A call that has not returned can go on, whatever the others do. -/
theorem exists_step {s : AppendState D T α ι} {t : ι} (h : s.phase t ≠ .returned) :
    ∃ s', step frame idx s t = some s' := by
  rw [step]
  cases ht : s.phase t with
  | returned => exact absurd ht h
  | _ => exact ⟨_, rfl⟩

end SetAsLastFrame

namespace SetAsFirstFrame

def step (s : AppendState D T α ι) (t : ι) : Option (AppendState D T α ι) :=
  match s.phase t with
  | .clear => some (s.go t { s.box with previousFrame := Function.update s.box.previousFrame (frame t) none } .read)
  | .read => some (s.go t s.box (.write (s.box.firstFramePtr idx)))
  | .write first =>
      some (s.go t { s.box with nextFrame := Function.update s.box.nextFrame (frame t) first } .exchange)
  | .exchange => some { s.go t { s.box with firstFramePtr := Function.update s.box.firstFramePtr idx (some (frame t)) }
      (.writeOld (s.box.firstFramePtr idx)) with exchanged := s.exchanged ++ [t] }
  | .writeOld old =>
      some (s.go t { s.box with nextFrame := Function.update s.box.nextFrame (frame t) old } (.link old))
  | .link old => some (s.go t (match old with
      | some old => { s.box with previousFrame := Function.update s.box.previousFrame old (some (frame t)) }
      | none => { s.box with lastFramePtr := Function.update s.box.lastFramePtr idx (some (frame t)) }) .returned)
  | .returned => none

/-- The first frame is the last one from the other side. -/
theorem step_mirror (s : AppendState D T α ι) (t : ι) :
    SetAsLastFrame.step frame idx s.mirror t = (step frame idx s t).map AppendState.mirror := by
  unfold step SetAsLastFrame.step
  rw [show s.mirror.phase t = s.phase t from rfl]
  cases s.phase t with
  | link old => cases old <;> rfl
  | _ => rfl

variable {frame idx}

theorem exists_step {s : AppendState D T α ι} {t : ι} (h : s.phase t ≠ .returned) :
    ∃ s', step frame idx s t = some s' := by
  obtain ⟨s₁, hs₁⟩ := SetAsLastFrame.exists_step (show s.mirror.phase t ≠ .returned from h)
  rw [step_mirror] at hs₁
  obtain ⟨s', hs', -⟩ := Option.map_eq_some_iff.mp hs₁
  exact ⟨s', hs'⟩

end SetAsFirstFrame

abbrev AppendRun (step : AppendState D T α ι → ι → Option (AppendState D T α ι)) :
    AppendState D T α ι → AppendState D T α ι → Prop :=
  Relation.ReflTransGen fun s s' => ∃ t, step s t = some s'

namespace SetAsLastFrame

/-- The list of the supercell with the frames whose exchange is done. -/
def lists (L : DataSpace D → List Ptr) (s : AppendState D T α ι) : DataSpace D → List Ptr :=
  Function.update L idx (L idx ++ s.exchanged.map frame)

structure Appending (L : DataSpace D → List Ptr) (s : AppendState D T α ι) : Prop where
  linked : LinkedExcept s.box (lists frame idx L s) {q | ∃ t, frame t = q ∧ (s.phase t).Unlinked}
    {q | ∃ t, frame t = q ∧ (s.phase t).Unset}
  allocated : ∀ t, frame t ∈ s.box.allocated
  nodup : s.exchanged.Nodup
  mem_exchanged : ∀ t, t ∈ s.exchanged ↔ (s.phase t).Exchanged
  cleared : ∀ t, (s.phase t).Cleared → s.box.nextFrame (frame t) = none
  old : ∀ t old, s.phase t = .writeOld old ∨ s.phase t = .link old →
    ∃ l r, lists frame idx L s idx = l ++ frame t :: r ∧ old = l.getLast?

variable {frame idx} {L : DataSpace D → List Ptr} {s s' : AppendState D T α ι} {t : ι}

omit [DecidableEq ι] in
theorem Appending.start {box : ParticlesBox D T α} (hL : Linked box L) (halloc : ∀ t, frame t ∈ box.allocated) :
    Appending frame idx L (.start box : AppendState D T α ι) where
  linked := by
    have hlists : lists frame idx L (.start box : AppendState D T α ι) = L := by
      simp [lists, AppendState.start]
    rw [hlists]
    exact hL.linkedExcept.mono (Set.empty_subset _) (Set.empty_subset _)
  allocated := halloc
  nodup := List.nodup_nil
  mem_exchanged t := by simp [AppendState.start, AppendPhase.Exchanged]
  cleared t h := h.elim
  old t old h := by simp [AppendState.start] at h

section Step

variable (hinj : Function.Injective frame) (hown : ∀ t c, frame t ∉ L c)

omit [DecidableEq ι] in
include hinj hown in
theorem Appending.mem_lists (h : Appending frame idx L s) {c : DataSpace D} :
    frame t ∈ lists frame idx L s c ↔ c = idx ∧ (s.phase t).Exchanged := by
  rw [← h.mem_exchanged]
  by_cases hc : c = idx
  · subst hc
    simp [lists, hown t c, hinj.eq_iff]
  · simp [lists, hown t c, hc]

theorem phase_go {box : ParticlesBox D T α} {phase : AppendPhase} {t' : ι} (hne : t' ≠ t) :
    (s.go t box phase).phase t' = s.phase t' := Function.update_of_ne hne _ _

theorem phase_go_self {box : ParticlesBox D T α} {phase : AppendPhase} : (s.go t box phase).phase t = phase :=
  Function.update_self _ _ _

theorem subset_go {P : AppendPhase → Prop} {phase : AppendPhase} (hP : P (s.phase t) → P phase) :
    {q | ∃ t', frame t' = q ∧ P (s.phase t')} ⊆
      {q | ∃ t', frame t' = q ∧ P (Function.update s.phase t phase t')} := by
  rintro q ⟨t', rfl, ht'⟩
  refine ⟨t', rfl, ?_⟩
  by_cases hne : t' = t
  · subst hne
    rw [Function.update_self]
    exact hP ht'
  · rwa [Function.update_of_ne hne]

theorem sdiff_subset_go {P : AppendPhase → Prop} {phase : AppendPhase} :
    {q | ∃ t', frame t' = q ∧ P (s.phase t')} \ {frame t} ⊆
      {q | ∃ t', frame t' = q ∧ P (Function.update s.phase t phase t')} := by
  rintro q ⟨⟨t', rfl, ht'⟩, hne⟩
  have hne' : t' ≠ t := fun he => hne (congrArg frame he)
  exact ⟨t', rfl, by rwa [Function.update_of_ne hne']⟩

theorem Appending.go (h : Appending frame idx L s) {box : ParticlesBox D T α} {phase : AppendPhase}
    (hlinked : LinkedExcept box (lists frame idx L s) {q | ∃ t', frame t' = q ∧ ((s.go t box phase).phase t').Unlinked}
      {q | ∃ t', frame t' = q ∧ ((s.go t box phase).phase t').Unset})
    (halloc : box.allocated = s.box.allocated) (hexchanged : phase.Exchanged ↔ (s.phase t).Exchanged)
    (hcleared : phase.Cleared → box.nextFrame (frame t) = none)
    (hnext : ∀ t', t' ≠ t → (s.phase t').Cleared → box.nextFrame (frame t') = s.box.nextFrame (frame t'))
    (hold : ∀ old, phase = .writeOld old ∨ phase = .link old → s.phase t = .writeOld old ∨ s.phase t = .link old) :
    Appending frame idx L (s.go t box phase) where
  linked := hlinked
  allocated t' := by
    change frame t' ∈ box.allocated
    rw [halloc]
    exact h.allocated t'
  nodup := h.nodup
  mem_exchanged t' := by
    by_cases hne : t' = t
    · subst hne
      rw [phase_go_self, hexchanged]
      exact h.mem_exchanged t'
    · rw [phase_go hne]
      exact h.mem_exchanged t'
  cleared t' ht' := by
    by_cases hne : t' = t
    · subst hne
      rw [phase_go_self] at ht'
      exact hcleared ht'
    · rw [phase_go hne] at ht'
      exact (hnext t' hne ht').trans (h.cleared t' ht')
  old t' old ht' := by
    by_cases hne : t' = t
    · subst hne
      rw [phase_go_self] at ht'
      exact h.old t' old (hold old ht')
    · rw [phase_go hne] at ht'
      exact h.old t' old ht'

include hinj hown in
theorem Appending.step (h : Appending frame idx L s) (hstep : step frame idx s t = some s') :
    Appending frame idx L s' := by
  have hfree : ∀ t', ¬(s.phase t').Exchanged → ∀ c, frame t' ∉ lists frame idx L s c :=
    fun t' ht' c hc => ht' ((h.mem_lists hinj hown).mp hc).2
  have hother : ∀ {t'}, t' ≠ t → frame t' ≠ frame t := fun hne he => hne (hinj he)
  unfold SetAsLastFrame.step at hstep
  cases hphase : s.phase t with
  | clear =>
    rw [hphase, Option.some_inj] at hstep
    subst hstep
    have hnot := hfree t (by simp [hphase, AppendPhase.Exchanged])
    refine h.go ?_ rfl (by simp [hphase, AppendPhase.Exchanged]) (fun _ => Function.update_self _ _ _)
      (fun t' hne _ => Function.update_of_ne (hother hne) _ _) (by simp)
    have hcongr : LinkedExcept { s.box with nextFrame := Function.update s.box.nextFrame (frame t) none } _ _ _ :=
      h.linked.congr (by rfl) (by rfl) (fun c p hp => Function.update_of_ne (ne_of_mem_of_not_mem hp (hnot c)) _ _)
        (fun _ _ _ => rfl) h.linked.allocated
    refine hcongr.mono (subset_go ?_) (subset_go ?_) <;>
    simp [hphase, AppendPhase.Unlinked, AppendPhase.Unset]
  | read =>
    rw [hphase, Option.some_inj] at hstep
    subst hstep
    refine h.go (h.linked.mono (subset_go ?_) (subset_go ?_)) rfl (by simp [hphase, AppendPhase.Exchanged])
      (fun _ => h.cleared t (by simp [hphase, AppendPhase.Cleared])) (fun _ _ _ => rfl) (by simp) <;>
    simp [hphase, AppendPhase.Unlinked, AppendPhase.Unset]
  | write last =>
    rw [hphase, Option.some_inj] at hstep
    subst hstep
    have hnot := hfree t (by simp [hphase, AppendPhase.Exchanged])
    refine h.go ?_ rfl (by simp [hphase, AppendPhase.Exchanged])
      (fun _ => h.cleared t (by simp [hphase, AppendPhase.Cleared])) (fun _ _ _ => rfl) (by simp)
    have hcongr : LinkedExcept { s.box with
        previousFrame := Function.update s.box.previousFrame (frame t) last } _ _ _ :=
      h.linked.congr (by rfl) (by rfl) (fun _ _ _ => rfl)
        (fun c p hp => Function.update_of_ne (ne_of_mem_of_not_mem hp (hnot c)) _ _) h.linked.allocated
    refine hcongr.mono (subset_go ?_) (subset_go ?_) <;>
    simp [hphase, AppendPhase.Unlinked, AppendPhase.Unset]
  | exchange =>
    rw [hphase, Option.some_inj] at hstep
    subst hstep
    have hlists : Function.update (lists frame idx L s) idx (lists frame idx L s idx ++ [frame t]) =
        Function.update L idx (L idx ++ (s.exchanged ++ [t]).map frame) := by
      simp [lists]
    have happend := h.linked.append (hfree t (by simp [hphase, AppendPhase.Exchanged])) (h.allocated t)
      (h.cleared t (by simp [hphase, AppendPhase.Cleared])) idx
    rw [hlists] at happend
    have hnotin : t ∉ s.exchanged := by
      rw [h.mem_exchanged, hphase]
      exact fun h => h
    refine ⟨happend.mono (Set.insert_subset ?_ (subset_go ?_)) (Set.insert_subset ?_ (subset_go ?_)), h.allocated,
      List.nodup_append.mpr ⟨h.nodup, by simp, fun a ha b hb he => hnotin (by
        obtain rfl : b = t := by simpa using hb
        exact he ▸ ha)⟩, fun t' => ?_, fun t' ht' => ?_, fun t' old ht' => ?_⟩
    · exact ⟨t, rfl, by rw [phase_go_self]; trivial⟩
    · simp [hphase, AppendPhase.Unlinked]
    · exact ⟨t, rfl, by rw [phase_go_self]; trivial⟩
    · simp [hphase, AppendPhase.Unset]
    · by_cases hne : t' = t
      · subst hne
        simp [AppendState.go, AppendPhase.Exchanged]
      · simpa [AppendState.go, hne] using h.mem_exchanged t'
    · by_cases hne : t' = t
      · subst hne
        simp [AppendState.go, AppendPhase.Cleared] at ht'
      · simp only [AppendState.go, Function.update_of_ne hne] at ht'
        exact h.cleared t' ht'
    · change ∃ l r, Function.update L idx (L idx ++ (s.exchanged ++ [t]).map frame) idx = l ++ frame t' :: r ∧ _
      rw [← hlists, Function.update_self]
      by_cases hne : t' = t
      · subst hne
        refine ⟨_, [], rfl, ?_⟩
        simp only [AppendState.go, Function.update_self, AppendPhase.writeOld.injEq, reduceCtorEq, or_false] at ht'
        rw [← ht']
        exact h.linked.last idx
      · simp only [AppendState.go, Function.update_of_ne hne] at ht'
        obtain ⟨l, r, he, hold⟩ := h.old t' old ht'
        exact ⟨l, r ++ [frame t], by rw [he, List.append_assoc, List.cons_append], hold⟩
  | writeOld old =>
    rw [hphase, Option.some_inj] at hstep
    subst hstep
    obtain ⟨l, r, he, rfl⟩ := h.old t old (.inl hphase)
    refine h.go ?_ rfl (by simp [hphase, AppendPhase.Exchanged]) (fun hc => hc.elim) (fun _ _ _ => rfl)
      (by simp [hphase])
    exact (h.linked.setPrevious he).mono (subset_go (by simp [AppendPhase.Unlinked])) sdiff_subset_go
  | link old =>
    rw [hphase, Option.some_inj] at hstep
    subst hstep
    obtain ⟨l, r, he, rfl⟩ := h.old t old (.inr hphase)
    refine h.go ?_ ?_ (by simp [hphase, AppendPhase.Exchanged]) (fun hc => hc.elim) (fun t' hne ht' => ?_) (by simp)
    · exact (h.linked.setNext he).mono sdiff_subset_go (subset_go (by simp [hphase, AppendPhase.Unset]))
    · unfold setNext
      cases l.getLast? <;> rfl
    · have hnot := hfree t' ht'.not_exchanged
      unfold setNext
      cases hl : l.getLast? with
      | none => rfl
      | some q =>
        refine Function.update_of_ne (fun heq => hnot idx ?_) _ _
        rw [heq, he]
        exact List.mem_append_left _ (List.mem_of_getLast? hl)
  | returned => simp [hphase] at hstep

include hinj hown in
theorem Appending.run {box : ParticlesBox D T α} (hL : Linked box L) (halloc : ∀ t, frame t ∈ box.allocated)
    (hrun : AppendRun (SetAsLastFrame.step frame idx) (.start box) s) : Appending frame idx L s := by
  induction hrun with
  | refl => exact Appending.start hL halloc
  | tail _ hstep ih =>
    obtain ⟨t, ht⟩ := hstep
    exact ih.step hinj hown ht

include hinj hown in
/-- When all calls have returned, the frames stand behind the old list in the order of the exchanges. -/
theorem linked_of_returned {box : ParticlesBox D T α} (hL : Linked box L) (halloc : ∀ t, frame t ∈ box.allocated)
    (hrun : AppendRun (SetAsLastFrame.step frame idx) (.start box) s) (hend : ∀ t, s.phase t = .returned) :
    Linked s.box (Function.update L idx (L idx ++ s.exchanged.map frame)) ∧ s.exchanged.Nodup ∧
      ∀ t, t ∈ s.exchanged := by
  have h := Appending.run hinj hown hL halloc hrun
  refine ⟨h.linked.linked ?_ ?_, h.nodup, fun t => ?_⟩
  · rintro c p - ⟨t, -, ht⟩
    simp [hend t, AppendPhase.Unlinked] at ht
  · rintro c p - ⟨t, -, ht⟩
    simp [hend t, AppendPhase.Unset] at ht
  · rw [h.mem_exchanged, hend t]
    trivial

end Step

end SetAsLastFrame

namespace SetAsFirstFrame

variable {frame idx} {L : DataSpace D → List Ptr} {s s' : AppendState D T α ι}

theorem run_mirror (hrun : AppendRun (step frame idx) s s') :
    AppendRun (SetAsLastFrame.step frame idx) s.mirror s'.mirror := by
  induction hrun with
  | refl => exact .refl
  | tail _ hstep ih =>
    obtain ⟨t, ht⟩ := hstep
    exact ih.tail ⟨t, by rw [step_mirror, ht, Option.map_some]⟩

theorem linked_of_returned (hinj : Function.Injective frame) (hown : ∀ t c, frame t ∉ L c)
    {box : ParticlesBox D T α} (hL : Linked box L) (halloc : ∀ t, frame t ∈ box.allocated)
    (hrun : AppendRun (step frame idx) (.start box) s) (hend : ∀ t, s.phase t = .returned) :
    Linked s.box (Function.update L idx ((s.exchanged.map frame).reverse ++ L idx)) ∧ s.exchanged.Nodup ∧
      ∀ t, t ∈ s.exchanged := by
  obtain ⟨hlinked, hnd, hall⟩ := SetAsLastFrame.linked_of_returned hinj
    (L := fun c => (L c).reverse) (fun t c hc => hown t c (List.mem_reverse.mp hc)) hL.mirror halloc
    (run_mirror hrun) hend
  refine ⟨?_, hnd, hall⟩
  have hlists : (fun c => (Function.update (fun c => (L c).reverse) idx
      ((L idx).reverse ++ s.exchanged.map frame) c).reverse) =
      Function.update L idx ((s.exchanged.map frame).reverse ++ L idx) := by
    funext c
    by_cases hc : c = idx
    · subst hc
      simp
    · simp [Function.update_of_ne hc]
  have h := hlinked.mirror
  rw [← hlists]
  exact h

end SetAsFirstFrame

/-- For every interleaving of the calls of `setAsLastFrame`, and likewise of `setAsFirstFrame`: when all have
returned, the list is well formed and the new frames have the order of their exchanges. -/
theorem concurrent_append {box : ParticlesBox D T α} {L : DataSpace D → List Ptr} (hL : Linked box L)
    {frame : ι → Ptr} (idx : DataSpace D) (hinj : Function.Injective frame) (hown : ∀ t c, frame t ∉ L c)
    (halloc : ∀ t, frame t ∈ box.allocated) :
    (∀ s, AppendRun (SetAsLastFrame.step frame idx) (.start box) s → (∀ t, s.phase t = .returned) →
      Linked s.box (Function.update L idx (L idx ++ s.exchanged.map frame)) ∧ s.exchanged.Nodup ∧
        ∀ t, t ∈ s.exchanged) ∧
    ∀ s, AppendRun (SetAsFirstFrame.step frame idx) (.start box) s → (∀ t, s.phase t = .returned) →
      Linked s.box (Function.update L idx ((s.exchanged.map frame).reverse ++ L idx)) ∧ s.exchanged.Nodup ∧
        ∀ t, t ∈ s.exchanged :=
  ⟨fun _ hrun hend => SetAsLastFrame.linked_of_returned hinj hown hL halloc hrun hend,
    fun _ hrun hend => SetAsFirstFrame.linked_of_returned hinj hown hL halloc hrun hend⟩

omit [DecidableEq ι] in
/-- A run that is given by the threads that take the steps. -/
theorem AppendRun.of_foldlM {step : AppendState D T α ι → ι → Option (AppendState D T α ι)} {threads : List ι}
    {s s' : AppendState D T α ι} (h : threads.foldlM step s = some s') : AppendRun step s s' := by
  induction threads generalizing s with
  | nil =>
    obtain rfl : s = s' := Option.some.inj h
    exact .refl
  | cons t threads ih =>
    rw [List.foldlM_cons] at h
    cases ht : step s t with
    | none => simp [ht] at h
    | some s₁ => exact .head ⟨t, ht⟩ (ih (by simpa [ht] using h))

def noLists : ParticlesBox 2 1 ℕ where
  multiMask _ _ := 0
  attributes _ _ := 0
  previousFrame _ := none
  nextFrame _ := none
  firstFramePtr _ := none
  lastFramePtr _ := none
  mustShift _ := false
  sizeLastFrame _ := 0
  allocated := {0, 1}
  attempts := 0

theorem noLists_linked : Linked noLists fun _ => [] :=
  ⟨fun _ => rfl, fun _ => rfl, fun c l p r he => by simp at he, fun c l p r he => by simp at he,
    fun _ => List.nodup_nil, fun c c' p hp => by simp at hp, fun c p hp => by simp at hp⟩

/-- The second thread exchanges after the first one, and returns before the first one links. -/
theorem concurrent_append_noLists :
    (∃ s, AppendRun (SetAsLastFrame.step (fun t : Fin 2 => t.val) 0) (.start noLists) s ∧
      (∀ t, s.phase t = .returned) ∧ s.exchanged = [0, 1] ∧
      Linked s.box (Function.update (fun _ => []) 0 ([] ++ s.exchanged.map fun t : Fin 2 => t.val))) ∧
    ∃ s, AppendRun (SetAsFirstFrame.step (fun t : Fin 2 => t.val) 0) (.start noLists) s ∧
      (∀ t, s.phase t = .returned) ∧ s.exchanged = [0, 1] ∧
      Linked s.box (Function.update (fun _ => []) 0 ((s.exchanged.map fun t : Fin 2 => t.val).reverse ++ [])) := by
  have hinj : Function.Injective fun t : Fin 2 => t.val := fun _ _ h => Fin.ext h
  have happend := concurrent_append noLists_linked 0 hinj (fun _ _ => by simp) (by decide)
  let threads : List (Fin 2) := [0, 1, 0, 1, 0, 1, 0, 1, 1, 1, 0, 0]
  constructor
  · obtain ⟨s, hfold, hend, hex⟩ : ∃ s, threads.foldlM (SetAsLastFrame.step (fun t : Fin 2 => t.val) 0)
        (.start noLists) = some s ∧ (∀ t, s.phase t = .returned) ∧ s.exchanged = [0, 1] := ⟨_, rfl, by decide, rfl⟩
    have hs := AppendRun.of_foldlM hfold
    exact ⟨s, hs, hend, hex, (happend.1 s hs hend).1⟩
  · obtain ⟨s, hfold, hend, hex⟩ : ∃ s, threads.foldlM (SetAsFirstFrame.step (fun t : Fin 2 => t.val) 0)
        (.start noLists) = some s ∧ (∀ t, s.phase t = .returned) ∧ s.exchanged = [0, 1] := ⟨_, rfl, by decide, rfl⟩
    have hs := AppendRun.of_foldlM hfold
    exact ⟨s, hs, hend, hex, (happend.2 s hs hend).1⟩

end PIConGPU
