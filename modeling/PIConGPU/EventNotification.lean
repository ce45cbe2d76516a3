import Mathlib

/-!
# Notification of combined tasks

A `TaskLogicalAnd` observes the two tasks it combines and is deleted when both have notified it, which notifies
its own observers in turn. The observers of a task are a set of pointers, and are visited in any order.
-/
namespace PIConGPU.EventSystem

/-- Zero stands for an operand that is finished. -/
structure TaskLogicalAnd where
  task1 : ℕ
  task2 : ℕ
  deriving DecidableEq

namespace TaskLogicalAnd

def executeIntern (t : TaskLogicalAnd) : Bool := t.task1 = 0 ∧ t.task2 = 0

def event (t : TaskLogicalAnd) (eventId : ℕ) : TaskLogicalAnd :=
  if t.task1 = eventId then { t with task1 := 0 }
  else if t.task2 = eventId then { t with task2 := 0 }
  else t

end TaskLogicalAnd

inductive Observer
  | manager
  | logicalAnd (id : ℕ)
  deriving DecidableEq

/-- The tasks of the manager and the objects in memory. The operands that a `TaskLogicalAnd` was created with and
the order of the destructor calls are kept for the specification. -/
structure State where
  globalId : ℕ
  tasks : Finset ℕ
  passiveTasks : Finset ℕ
  logicalAnds : ℕ → Option TaskLogicalAnd
  observers : ℕ → Finset Observer
  operands : ℕ → Option (ℕ × ℕ)
  destroyed : List ℕ

/-- The order in which the elements of a set are visited. -/
structure VisitingOrder where
  visit : Finset Observer → List Observer
  nodup : ∀ s, (visit s).Nodup
  mem_visit : ∀ s o, o ∈ visit s ↔ o ∈ s

namespace State

def setLogicalAnd (s : State) (id : ℕ) (t : Option TaskLogicalAnd) : State :=
  { s with logicalAnds := Function.update s.logicalAnds id t }

def destroy (s : State) (id : ℕ) : State :=
  { s with tasks := s.tasks.erase id, destroyed := s.destroyed ++ [id] }

end State

section Notify

variable (order : VisitingOrder)

def deliver (event : State → ℕ → ℕ → Option State) (eventId : ℕ) (s : State) : Observer → Option State
  | .manager => some { s with passiveTasks := s.passiveTasks.erase eventId }
  | .logicalAnd id => event s id eventId

def notify (event : State → ℕ → ℕ → Option State) (s : State) (eventId : ℕ) : Option State :=
  ((order.visit (s.observers eventId)).foldlM (deliver event eventId) s).map fun s =>
    { s with observers := Function.update s.observers eventId ∅ }

/-- `event` of the object with the given id. The use of a deleted object fails, and so does a recursion that is
deeper than the first argument. -/
def event : ℕ → State → ℕ → ℕ → Option State
  | 0, _, _, _ => none
  | depth + 1, s, id, eventId =>
    match s.logicalAnds id with
    | none => none
    | some t =>
      let s := s.setLogicalAnd id (some (t.event eventId))
      if (t.event eventId).executeIntern then
        -- `delete this`, with the call of the destructor
        (notify order (event depth) (s.destroy id) id).map fun s => s.setLogicalAnd id none
      else some s

end Notify

/-- The `TaskLogicalAnd` was created with the given operand. -/
def Observes (s : State) (id x : ℕ) : Prop := ∃ a b, s.operands id = some (a, b) ∧ (x = a ∨ x = b)

/-- The object has not yet been notified by an operand. -/
def Waits (s : State) (pending : Set (ℕ × Observer)) (id x : ℕ) : Prop :=
  x ∉ s.destroyed ∨ (x, .logicalAnd id) ∈ pending

/-- The state while events are pending. The object `busy` is just being notified. -/
structure Cascade (s : State) (pending : Set (ℕ × Observer)) (busy : ℕ) : Prop where
  tasks : ∀ x, x ∈ s.tasks ↔ (1 ≤ x ∧ x < s.globalId) ∧ s.operands x = none ∧ x ∉ s.destroyed
  operands : ∀ id a b, s.operands id = some (a, b) → id < s.globalId ∧ (1 ≤ a ∧ a < id) ∧ (1 ≤ b ∧ b < id) ∧ a ≠ b
  nodup : s.destroyed.Nodup
  destroyed : ∀ x ∈ s.destroyed, 1 ≤ x ∧ x < s.globalId
  before : ∀ l₁ id l₂ a b, s.destroyed = l₁ ++ id :: l₂ → s.operands id = some (a, b) → a ∈ l₁ ∧ b ∈ l₁
  passiveTasks : ∀ x, x ∈ s.passiveTasks ↔
    (s.operands x).isSome = true ∧ (x ∉ s.destroyed ∨ (x, .manager) ∈ pending)
  manager : ∀ x ∉ s.destroyed, .manager ∈ s.observers x ↔ (s.operands x).isSome = true
  observers : ∀ x ∉ s.destroyed, ∀ id, .logicalAnd id ∈ s.observers x ↔ Observes s id x
  pending_destroyed : ∀ x o, (x, o) ∈ pending → x ∈ s.destroyed
  pending_alive : ∀ x id, (x, .logicalAnd id) ∈ pending → id ∉ s.destroyed ∧ Observes s id x
  alive : ∀ id a b, id ≠ busy → s.operands id = some (a, b) → id ∉ s.destroyed →
    (Waits s pending id a ∨ Waits s pending id b) ∧ ∃ t, s.logicalAnds id = some t ∧
      ((Waits s pending id a → t.task1 = a) ∧ (¬Waits s pending id a → t.task1 = 0)) ∧
      ((Waits s pending id b → t.task2 = b) ∧ (¬Waits s pending id b → t.task2 = 0))

section Cascades

variable {s : State} {pending : Set (ℕ × Observer)} {busy : ℕ}

theorem split_append_singleton {α : Type*} {l l₁ l₂ : List α} {x y : α} (h : l ++ [x] = l₁ ++ y :: l₂) :
    (l₁ = l ∧ y = x) ∨ ∃ c, l = l₁ ++ y :: c := by
  rcases List.append_eq_append_iff.mp h with ⟨c, hl, hc⟩ | ⟨c, hl, hc⟩
  · cases c with
    | nil => exact Or.inl ⟨by simpa using hl, by simpa using (List.cons.inj hc).1.symm⟩
    | cons z c => simp at hc
  · cases c with
    | nil => exact Or.inl ⟨by simpa using hl.symm, (List.cons.inj hc).1⟩
    | cons z c => exact Or.inr ⟨c, by rw [hl, (List.cons.inj hc).1]⟩

theorem Cascade.operands_destroyed (h : Cascade s pending busy) {id a b : ℕ} (hid : id ∈ s.destroyed)
    (hop : s.operands id = some (a, b)) : a ∈ s.destroyed ∧ b ∈ s.destroyed := by
  obtain ⟨l₁, l₂, hl⟩ := List.append_of_mem hid
  obtain ⟨ha, hb⟩ := h.before l₁ id l₂ a b hl hop
  rw [hl]
  exact ⟨List.mem_append_left _ ha, List.mem_append_left _ hb⟩

theorem Cascade.observer_alive (h : Cascade s pending busy) {id x : ℕ} (hx : x ∉ s.destroyed) (ho : Observes s id x) :
    id ∉ s.destroyed ∧ x < id := by
  obtain ⟨a, b, hop, hxab⟩ := ho
  obtain ⟨-, ha, hb, -⟩ := h.operands id a b hop
  refine ⟨fun hid => ?_, ?_⟩
  · obtain ⟨hda, hdb⟩ := h.operands_destroyed hid hop
    rcases hxab with rfl | rfl
    · exact hx hda
    · exact hx hdb
  · rcases hxab with rfl | rfl <;> omega

/-- The start of a destructor makes the events for all observers pending. -/
theorem Cascade.destroy (h : Cascade s pending busy) (hbusy : 1 ≤ busy ∧ busy < s.globalId) (hnew : busy ∉ s.destroyed)
    (hop : ∀ a b, s.operands busy = some (a, b) → a ∈ s.destroyed ∧ b ∈ s.destroyed)
    (hpend : ∀ x, (x, .logicalAnd busy) ∉ pending) :
    Cascade (s.destroy busy) (pending ∪ {p | p.1 = busy ∧ p.2 ∈ s.observers busy}) 0 := by
  have hmem : ∀ x, x ∈ (s.destroy busy).destroyed ↔ x ∈ s.destroyed ∨ x = busy := fun x => by simp [State.destroy]
  have hwaits : ∀ id x, Observes s id x →
      (Waits (s.destroy busy) (pending ∪ {p | p.1 = busy ∧ p.2 ∈ s.observers busy}) id x ↔ Waits s pending id x) := by
    intro id x ho
    simp only [Waits, hmem, Set.mem_union, Set.mem_ofPred_eq]
    by_cases hx : x = busy
    · subst hx
      have hin := (h.observers x hnew id).mpr ho
      simp [hnew, hin]
    · simp [hx]
  refine ⟨fun x => ?_, h.operands, ?_, fun x hx => ?_, fun l₁ id l₂ a b hl hid => ?_, fun x => ?_, fun x hx => ?_,
    fun x hx id => ?_, fun x o hx => ?_, fun x id hx => ?_, fun id a b _ hid hd => ?_⟩
  · rw [hmem]
    simp only [State.destroy, Finset.mem_erase, h.tasks]
    tauto
  · exact List.nodup_append.mpr ⟨h.nodup, by simp, fun a ha b hb => by
      rw [List.mem_singleton] at hb
      exact fun he => hnew (hb ▸ he ▸ ha)⟩
  · rcases (hmem x).mp hx with hx | rfl
    · exact h.destroyed x hx
    · exact hbusy
  · rcases split_append_singleton hl with ⟨rfl, rfl⟩ | ⟨c, hc⟩
    · exact hop a b hid
    · exact h.before l₁ id c a b hc hid
  · rw [hmem]
    simp only [State.destroy, h.passiveTasks, Set.mem_union, Set.mem_ofPred_eq]
    by_cases hx : x = busy
    · subst hx
      have hman := h.manager x hnew
      simp only [hnew, hman]
      tauto
    · simp [hx]
  · rw [hmem, not_or] at hx
    exact h.manager x hx.1
  · rw [hmem, not_or] at hx
    exact h.observers x hx.1 id
  · rw [hmem]
    exact hx.imp (h.pending_destroyed x o) fun hp => hp.1
  · rw [hmem, not_or]
    rcases hx with hx | ⟨rfl, ho⟩
    · exact ⟨⟨(h.pending_alive x id hx).1, fun he => hpend x (he ▸ hx)⟩, (h.pending_alive x id hx).2⟩
    · have hobs := (h.observers x hnew id).mp ho
      obtain ⟨h1, h2⟩ := h.observer_alive hnew hobs
      exact ⟨⟨h1, by omega⟩, hobs⟩
  · rw [hmem, not_or] at hd
    rw [hwaits id a ⟨a, b, hid, Or.inl rfl⟩, hwaits id b ⟨a, b, hid, Or.inr rfl⟩]
    exact h.alive id a b hd.2 hid hd.1

/-- The fields of a `TaskLogicalAnd` are its operands as long as it waits for them. -/
def Shows (s : State) (pending : Set (ℕ × Observer)) (id a b : ℕ) (t : TaskLogicalAnd) : Prop :=
  ((Waits s pending id a → t.task1 = a) ∧ (¬Waits s pending id a → t.task1 = 0)) ∧
    ((Waits s pending id b → t.task2 = b) ∧ (¬Waits s pending id b → t.task2 = 0))

theorem Shows.executeIntern_iff {id a b : ℕ} {t : TaskLogicalAnd} (h : Shows s pending id a b t) (ha : 1 ≤ a)
    (hb : 1 ≤ b) : t.executeIntern = true ↔ ¬Waits s pending id a ∧ ¬Waits s pending id b := by
  obtain ⟨⟨h1, h2⟩, h3, h4⟩ := h
  by_cases hwa : Waits s pending id a <;> by_cases hwb : Waits s pending id b
  · simp [TaskLogicalAnd.executeIntern, h1 hwa, hwa]
    omega
  · simp [TaskLogicalAnd.executeIntern, h1 hwa, hwa]
    omega
  · simp [TaskLogicalAnd.executeIntern, h3 hwb, hwb]
    omega
  · simp [TaskLogicalAnd.executeIntern, h2 hwa, h4 hwb, hwa, hwb]

theorem Shows.event {id a b x : ℕ} {t : TaskLogicalAnd} (h : Shows s pending id a b t) (hab : a ≠ b) (hb : 1 ≤ b)
    (hx : x = a ∨ x = b) (hd : x ∈ s.destroyed) (hp : (x, .logicalAnd id) ∈ pending) :
    Shows s (pending \ {(x, .logicalAnd id)}) id a b (t.event x) := by
  obtain ⟨⟨h1, h2⟩, h3, h4⟩ := h
  have hwx : ¬Waits s (pending \ {(x, .logicalAnd id)}) id x := by simp [Waits, hd]
  have hother : ∀ y, y ≠ x → (Waits s (pending \ {(x, .logicalAnd id)}) id y ↔ Waits s pending id y) := fun y hy => by
    simp [Waits, hy]
  rcases hx with rfl | rfl
  · have ht : t.task1 = x := h1 (Or.inr hp)
    rw [TaskLogicalAnd.event, if_pos ht, Shows, hother b hab.symm]
    exact ⟨⟨fun hw => absurd hw hwx, fun _ => rfl⟩, h3, h4⟩
  · have ht : t.task2 = x := h3 (Or.inr hp)
    have hne : t.task1 ≠ x := by
      by_cases hw : Waits s pending id a
      · rw [h1 hw]
        exact hab
      · rw [h2 hw]
        omega
    rw [TaskLogicalAnd.event, if_neg hne, if_pos ht, Shows, hother a hab]
    exact ⟨⟨h1, h2⟩, fun hw => absurd hw hwx, fun _ => rfl⟩

/-- Delivery of a pending event, apart from the deletion that may follow. -/
theorem Cascade.setLogicalAnd (h : Cascade s pending 0) {x id : ℕ} (t : TaskLogicalAnd) :
    Cascade (s.setLogicalAnd id (some t)) (pending \ {(x, .logicalAnd id)}) id := by
  refine ⟨h.tasks, h.operands, h.nodup, h.destroyed, h.before, fun y => ?_, h.manager, h.observers,
    fun y o hy => h.pending_destroyed y o hy.1, fun y i hy => h.pending_alive y i hy.1, fun i a b hi hop hd => ?_⟩
  · simpa [State.setLogicalAnd] using h.passiveTasks y
  · obtain ⟨-, ha, -, -⟩ := h.operands i a b hop
    obtain ⟨hw, t', ht', hshow⟩ := h.alive i a b (by omega) hop hd
    have hwaits : ∀ y, Waits (s.setLogicalAnd id (some t)) (pending \ {(x, .logicalAnd id)}) i y ↔ Waits s pending i y :=
      fun y => by simp [Waits, State.setLogicalAnd, hi]
    simp only [hwaits]
    exact ⟨hw, t', by simpa [State.setLogicalAnd, hi] using ht', hshow⟩

theorem Cascade.release {id a b : ℕ} {t : TaskLogicalAnd} (h : Cascade s pending id) (hop : s.operands id = some (a, b))
    (ht : s.logicalAnds id = some t) (hshow : Shows s pending id a b t)
    (hw : Waits s pending id a ∨ Waits s pending id b) : Cascade s pending 0 :=
  { h with
    alive := fun i a' b' _ hop' hd => by
      by_cases hi : i = id
      · subst hi
        obtain ⟨rfl, rfl⟩ := Prod.mk.inj (Option.some.inj (hop'.symm.trans hop))
        exact ⟨hw, t, ht, hshow⟩
      · exact h.alive i a' b' hi hop' hd }

theorem Cascade.eventManager (h : Cascade s pending 0) {x : ℕ} (hx : (x, .manager) ∈ pending) :
    Cascade { s with passiveTasks := s.passiveTasks.erase x } (pending \ {(x, .manager)}) 0 := by
  have hd := h.pending_destroyed x .manager hx
  refine ⟨h.tasks, h.operands, h.nodup, h.destroyed, h.before, fun y => ?_, h.manager, h.observers,
    fun y o hy => h.pending_destroyed y o hy.1, fun y i hy => h.pending_alive y i hy.1, fun i a b hi hop hdi => ?_⟩
  · simp only [Finset.mem_erase, h.passiveTasks, Set.mem_sdiff, Set.mem_singleton_iff, Prod.mk.injEq, and_true]
    by_cases hy : y = x
    · subst hy
      simp [hd]
    · simp [hy]
  · have hwaits : ∀ y, Waits { s with passiveTasks := s.passiveTasks.erase x } (pending \ {(x, .manager)}) i y ↔
        Waits s pending i y := fun y => by simp [Waits]
    simp only [hwaits]
    exact h.alive i a b hi hop hdi

/-- Objects that are deleted play no role any more. -/
theorem Cascade.forget (h : Cascade s pending 0) {x : ℕ} (hx : x ∈ s.destroyed) :
    Cascade { s with observers := Function.update s.observers x ∅ } pending 0 :=
  { h with
    manager := fun y hy => by
      have hne : y ≠ x := fun he => hy (he ▸ hx)
      simpa [hne] using h.manager y hy
    observers := fun y hy id => by
      have hne : y ≠ x := fun he => hy (he ▸ hx)
      have hobs := h.observers y hy id
      simp only [Function.update_of_ne hne]
      exact hobs }

theorem Cascade.free (h : Cascade s pending 0) {x : ℕ} (hx : x ∈ s.destroyed) :
    Cascade (s.setLogicalAnd x none) pending 0 :=
  { h with
    alive := fun i a b hi hop hd => by
      obtain ⟨hw, t, ht, hshow⟩ := h.alive i a b hi hop hd
      have hne : i ≠ x := fun he => hd (he ▸ hx)
      exact ⟨hw, t, by simpa [State.setLogicalAnd, hne] using ht, hshow⟩ }

end Cascades

/-- What a cascade leaves as it is: only destructor calls are added. -/
structure Kept (s s' : State) : Prop where
  globalId : s'.globalId = s.globalId
  operands : s'.operands = s.operands
  tasks : s'.tasks = s.tasks
  destroyed : ∀ x ∈ s.destroyed, x ∈ s'.destroyed

theorem Kept.refl (s : State) : Kept s s := ⟨rfl, rfl, rfl, fun _ h => h⟩

theorem Kept.trans {s s' s'' : State} (h : Kept s s') (h' : Kept s' s'') : Kept s s'' :=
  ⟨h'.globalId.trans h.globalId, h'.operands.trans h.operands, h'.tasks.trans h.tasks,
    fun x hx => h'.destroyed x (h.destroyed x hx)⟩

def undestroyed (s : State) : Finset ℕ :=
  (Finset.range s.globalId).filter fun x => (s.operands x).isSome = true ∧ x ∉ s.destroyed

theorem Kept.undestroyed {s s' : State} (h : Kept s s') : undestroyed s' ⊆ undestroyed s := by
  intro x hx
  simp only [EventSystem.undestroyed, Finset.mem_filter, h.globalId, h.operands] at hx ⊢
  exact ⟨hx.1, hx.2.1, fun hd => hx.2.2 (h.destroyed x hd)⟩

section Events

variable {order : VisitingOrder} {s : State} {pending : Set (ℕ × Observer)}

/-- The specification of `event` for a bounded number of objects that can be deleted. -/
def EventSpec (order : VisitingOrder) (depth : ℕ) : Prop :=
  ∀ s pending x id, Cascade s pending 0 → (x, .logicalAnd id) ∈ pending → (undestroyed s).card ≤ depth →
    ∃ s', event order depth s id x = some s' ∧ Cascade s' (pending \ {(x, .logicalAnd id)}) 0 ∧ Kept s s'

/-- All events of a destructor are delivered, in any order. -/
theorem foldlM_deliver {depth : ℕ} (hev : EventSpec order depth) {l : List Observer} (hnd : l.Nodup) {x : ℕ}
    (hfresh : ∀ o, (x, o) ∉ pending) (h : Cascade s (pending ∪ {p | p.1 = x ∧ p.2 ∈ l}) 0)
    (hu : (undestroyed s).card ≤ depth) :
    ∃ s', l.foldlM (deliver (event order depth) x) s = some s' ∧ Cascade s' pending 0 ∧ Kept s s' := by
  induction l generalizing s with
  | nil => exact ⟨s, rfl, by simpa using h, Kept.refl s⟩
  | cons o l ih =>
    obtain ⟨hol, hnd⟩ := List.nodup_cons.mp hnd
    have hpend : (x, o) ∈ pending ∪ {p | p.1 = x ∧ p.2 ∈ o :: l} := Or.inr ⟨rfl, List.mem_cons_self ..⟩
    have hrest : (pending ∪ {p | p.1 = x ∧ p.2 ∈ o :: l}) \ {(x, o)} = pending ∪ {p | p.1 = x ∧ p.2 ∈ l} := by
      ext ⟨y, q⟩
      simp only [Set.mem_sdiff, Set.mem_union, Set.mem_ofPred_eq, List.mem_cons, Set.mem_singleton_iff, Prod.mk.injEq]
      have := hfresh q
      grind
    have hstep : ∃ s₁, deliver (event order depth) x s o = some s₁ ∧
        Cascade s₁ (pending ∪ {p | p.1 = x ∧ p.2 ∈ l}) 0 ∧ Kept s s₁ := by
      cases o with
      | manager =>
        have hc := h.eventManager hpend
        rw [hrest] at hc
        exact ⟨_, rfl, hc, ⟨rfl, rfl, rfl, fun _ hd => hd⟩⟩
      | logicalAnd id =>
        obtain ⟨s₁, hs₁, hc, hk⟩ := hev s _ x id h hpend hu
        rw [hrest] at hc
        exact ⟨s₁, hs₁, hc, hk⟩
    obtain ⟨s₁, hs₁, hc, hk⟩ := hstep
    obtain ⟨s', hs', hc', hk'⟩ := ih hnd hc ((Finset.card_le_card hk.undestroyed).trans hu)
    exact ⟨s', by rw [List.foldlM_cons, hs₁]; exact hs', hc', hk.trans hk'⟩

theorem notify_spec {depth : ℕ} (hev : EventSpec order depth) {x : ℕ} (hfresh : ∀ o, (x, o) ∉ pending)
    (hx : x ∈ s.destroyed) (h : Cascade s (pending ∪ {p | p.1 = x ∧ p.2 ∈ s.observers x}) 0)
    (hu : (undestroyed s).card ≤ depth) :
    ∃ s', notify order (event order depth) s x = some s' ∧ Cascade s' pending 0 ∧ Kept s s' := by
  have hvisit : {p : ℕ × Observer | p.1 = x ∧ p.2 ∈ s.observers x} =
      {p | p.1 = x ∧ p.2 ∈ order.visit (s.observers x)} := by
    ext p
    simp [order.mem_visit]
  rw [hvisit] at h
  obtain ⟨s', hs', hc, hk⟩ := foldlM_deliver hev (order.nodup _) hfresh h hu
  exact ⟨_, by rw [notify, hs']; rfl, hc.forget (hk.destroyed x hx), ⟨hk.globalId, hk.operands, hk.tasks, hk.destroyed⟩⟩

/-- A pending event is delivered, with all deletions that follow. -/
theorem event_spec (depth : ℕ) : EventSpec order depth := by
  induction depth with
  | zero =>
    intro s pending x id h hp hu
    obtain ⟨hd, a, b, hop, -⟩ := h.pending_alive x id hp
    have hid : id ∈ undestroyed s :=
      Finset.mem_filter.mpr ⟨Finset.mem_range.mpr (h.operands id a b hop).1, by simp [hop], hd⟩
    exact absurd (Finset.card_pos.mpr ⟨id, hid⟩) (by omega)
  | succ depth ih =>
    intro s pending x id h hp hu
    obtain ⟨hd, a, b, hop, hx⟩ := h.pending_alive x id hp
    obtain ⟨hid, ha, hb, hab⟩ := h.operands id a b hop
    obtain ⟨-, t, ht, hshow⟩ := h.alive id a b (by omega) hop hd
    have hshow' : Shows s (pending \ {(x, .logicalAnd id)}) id a b (t.event x) :=
      Shows.event hshow hab hb.1 hx (h.pending_destroyed _ _ hp) hp
    have hc : Cascade (s.setLogicalAnd id (some (t.event x))) (pending \ {(x, .logicalAnd id)}) id := h.setLogicalAnd _
    simp only [event, ht]
    split_ifs with hfin
    · obtain ⟨hwa, hwb⟩ := (hshow'.executeIntern_iff ha.1 hb.1).mp hfin
      simp only [Waits, not_or, not_not] at hwa hwb
      have hdestroy := hc.destroy (by exact ⟨by omega, hid⟩) hd
        (fun a' b' hop' => by
          obtain ⟨rfl, rfl⟩ := Prod.mk.inj (Option.some.inj (hop'.symm.trans hop))
          exact ⟨hwa.1, hwb.1⟩)
        (fun y hy => by
          obtain ⟨-, a', b', hop', hy'⟩ := h.pending_alive y id hy.1
          obtain ⟨rfl, rfl⟩ := Prod.mk.inj (Option.some.inj (hop'.symm.trans hop))
          rcases hy' with rfl | rfl
          · exact hwa.2 hy
          · exact hwb.2 hy)
      have hmem : id ∈ ((s.setLogicalAnd id (some (t.event x))).destroy id).destroyed := by simp [State.destroy]
      have hfresh : ∀ o, (id, o) ∉ pending \ {(x, .logicalAnd id)} := fun o ho => hd (h.pending_destroyed id o ho.1)
      have hcard : (undestroyed ((s.setLogicalAnd id (some (t.event x))).destroy id)).card ≤ depth := by
        have hlt : undestroyed ((s.setLogicalAnd id (some (t.event x))).destroy id) ⊂ undestroyed s := by
          refine Finset.ssubset_iff_subset_ne.mpr ⟨fun y hy => ?_, fun he => ?_⟩
          · simp only [undestroyed, State.destroy, State.setLogicalAnd, Finset.mem_filter, List.mem_append, not_or] at hy ⊢
            exact ⟨hy.1, hy.2.1, hy.2.2.1⟩
          · have hin : id ∈ undestroyed s := Finset.mem_filter.mpr ⟨Finset.mem_range.mpr hid, by simp [hop], hd⟩
            rw [← he] at hin
            exact (Finset.mem_filter.mp hin).2.2 hmem
        have := Finset.card_lt_card hlt
        omega
      obtain ⟨s', hs', hc', hk⟩ := notify_spec ih hfresh hmem hdestroy hcard
      refine ⟨s'.setLogicalAnd id none, by rw [hs']; rfl, hc'.free (hk.destroyed id hmem), ⟨hk.globalId, hk.operands, ?_, ?_⟩⟩
      · have hnot : id ∉ s.tasks := fun hin => by
          have := ((h.tasks id).mp hin).2.1
          simp [hop] at this
        exact hk.tasks.trans (Finset.erase_eq_of_notMem hnot)
      · exact fun y hy => hk.destroyed y (List.mem_append_left _ hy)
    · have hw : Waits s (pending \ {(x, .logicalAnd id)}) id a ∨ Waits s (pending \ {(x, .logicalAnd id)}) id b := by
        by_contra hcon
        rw [not_or] at hcon
        exact hfin ((hshow'.executeIntern_iff ha.1 hb.1).mpr hcon)
      exact ⟨_, rfl, hc.release hop (by simp [State.setLogicalAnd]) hshow' hw, ⟨rfl, rfl, rfl, fun _ hy => hy⟩⟩

end Events

end PIConGPU.EventSystem
