import PIConGPU.EventNotification

/-!
# Combination of events

An event is the id of a task. The sum of two events is a `TaskLogicalAnd`, unless one of the two is finished
already. A program creates tasks, combines events, and its tasks finish in any order.
-/
namespace PIConGPU.EventSystem

namespace State

def init : State where
  globalId := 1
  tasks := ∅
  passiveTasks := ∅
  logicalAnds := fun _ => none
  observers := fun _ => ∅
  operands := fun _ => none
  destroyed := []

variable (s : State)

def getITaskIfNotFinished (taskId : ℕ) : Bool := taskId ∈ s.passiveTasks ∨ taskId ∈ s.tasks

def isFinished (taskId : ℕ) : Bool := !s.getITaskIfNotFinished taskId

def createTask : State := { s with globalId := s.globalId + 1, tasks := insert s.globalId s.tasks }

/-- The manager erases a task and deletes it. There are at most as many nested calls as tasks. -/
def finishTask (order : VisitingOrder) (id : ℕ) : Option State :=
  if id ∈ s.tasks then notify order (event order s.globalId) (s.destroy id) id else some s

def newLogicalAnd (task1 task2 : ℕ) : State :=
  { s with
    globalId := s.globalId + 1
    passiveTasks := insert s.globalId s.passiveTasks
    logicalAnds := Function.update s.logicalAnds s.globalId (some ⟨task1, task2⟩)
    observers := fun x =>
      if x = s.globalId then {.manager}
      else if x = task1 ∨ x = task2 then insert (.logicalAnd s.globalId) (s.observers x)
      else s.observers x
    operands := Function.update s.operands s.globalId (some (task1, task2)) }

def plusAssign (taskId other : ℕ) : State × ℕ :=
  if taskId = other then (s, taskId)
  else if s.isFinished taskId then (s, other)
  else if s.isFinished other then (s, taskId)
  else (s.newLogicalAnd taskId other, s.globalId)

end State

structure EventTask where
  taskId : ℕ
  leaves : Finset ℕ

inductive Operation
  | createTask
  | emptyEvent
  | finishTask (id : ℕ)
  | plus (left right : ℕ)
  | plusAssign (left right : ℕ)

/-- Events are numbered in the order in which they appear; a number without an event is an empty event. -/
structure Program where
  state : State
  events : List EventTask

namespace Program

def event (p : Program) (i : ℕ) : EventTask := p.events.getD i ⟨0, ∅⟩

def sum (p : Program) (left right : ℕ) : State × EventTask :=
  let r := p.state.plusAssign (p.event left).taskId (p.event right).taskId
  (r.1, ⟨r.2, (p.event left).leaves ∪ (p.event right).leaves⟩)

def apply (order : VisitingOrder) (p : Program) : Operation → Option Program
  | .createTask => some ⟨p.state.createTask, p.events ++ [⟨p.state.globalId, {p.state.globalId}⟩]⟩
  | .emptyEvent => some { p with events := p.events ++ [⟨0, ∅⟩] }
  | .finishTask id => (p.state.finishTask order id).map fun s => { p with state := s }
  | .plus left right => some ⟨(p.sum left right).1, p.events ++ [(p.sum left right).2]⟩
  | .plusAssign left right => some ⟨(p.sum left right).1, p.events.set left (p.sum left right).2⟩

def run (order : VisitingOrder) (operations : List Operation) : Option Program :=
  operations.foldlM (apply order) ⟨State.init, []⟩

end Program

/-- A task without operands below a task. -/
inductive LeafOf (s : State) (leaf : ℕ) : ℕ → Prop
  | self : 1 ≤ leaf → s.operands leaf = none → LeafOf s leaf leaf
  | left {id a b : ℕ} : s.operands id = some (a, b) → LeafOf s leaf a → LeafOf s leaf id
  | right {id a b : ℕ} : s.operands id = some (a, b) → LeafOf s leaf b → LeafOf s leaf id

section Finished

variable {s : State} (h : Cascade s ∅ 0)

include h

theorem Cascade.not_isFinished_iff {x : ℕ} :
    s.isFinished x = false ↔ (1 ≤ x ∧ x < s.globalId) ∧ x ∉ s.destroyed := by
  simp only [State.isFinished, State.getITaskIfNotFinished, Bool.not_eq_false', decide_eq_true_eq, h.passiveTasks, h.tasks,
    Set.mem_empty_iff_false, or_false]
  cases hop : s.operands x with
  | none => simp
  | some p =>
    obtain ⟨h1, h2, -⟩ := h.operands x p.1 p.2 hop
    simp only [Option.isSome_some, true_and, reduceCtorEq, false_and, and_false, or_false]
    constructor
    · exact fun hd => ⟨⟨by omega, h1⟩, hd⟩
    · exact fun hd => hd.2

/-- A combined task is finished when its operands are. -/
theorem Cascade.destroyed_iff {id a b : ℕ} (hop : s.operands id = some (a, b)) :
    id ∈ s.destroyed ↔ a ∈ s.destroyed ∧ b ∈ s.destroyed := by
  refine ⟨fun hid => h.operands_destroyed hid hop, fun ⟨ha, hb⟩ => ?_⟩
  by_contra hid
  obtain ⟨-, h1, -⟩ := h.operands id a b hop
  obtain ⟨hw, -⟩ := h.alive id a b (by omega) hop hid
  simp [Waits, ha, hb] at hw

/-- A task is finished when all tasks below it are. -/
theorem Cascade.unfinished_iff {x : ℕ} (hx : 1 ≤ x ∧ x < s.globalId) :
    x ∉ s.destroyed ↔ ∃ l ∈ s.tasks, LeafOf s l x := by
  induction x using Nat.strong_induction_on with
  | _ x ih =>
    cases hop : s.operands x with
    | none =>
      constructor
      · exact fun hd => ⟨x, (h.tasks x).mpr ⟨hx, hop, hd⟩, .self hx.1 hop⟩
      · rintro ⟨l, hl, hleaf⟩
        cases hleaf with
        | self => exact ((h.tasks x).mp hl).2.2
        | left hop' => simp [hop] at hop'
        | right hop' => simp [hop] at hop'
    | some p =>
      obtain ⟨a, b⟩ := p
      obtain ⟨-, ha, hb, -⟩ := h.operands x a b hop
      rw [h.destroyed_iff hop, not_and_or, ih a ha.2 ⟨ha.1, by omega⟩, ih b hb.2 ⟨hb.1, by omega⟩]
      constructor
      · rintro (⟨l, hl, hleaf⟩ | ⟨l, hl, hleaf⟩)
        · exact ⟨l, hl, .left hop hleaf⟩
        · exact ⟨l, hl, .right hop hleaf⟩
      · rintro ⟨l, hl, hleaf⟩
        cases hleaf with
        | self _ hnone => simp [hop] at hnone
        | left hop' hleaf =>
          obtain ⟨rfl, rfl⟩ := Prod.mk.inj (Option.some.inj (hop'.symm.trans hop))
          exact Or.inl ⟨l, hl, hleaf⟩
        | right hop' hleaf =>
          obtain ⟨rfl, rfl⟩ := Prod.mk.inj (Option.some.inj (hop'.symm.trans hop))
          exact Or.inr ⟨l, hl, hleaf⟩

end Finished

section Operations

variable {s : State} (h : Cascade s ∅ 0)

include h

theorem Cascade.operands_fresh : s.operands s.globalId = none := by
  cases hop : s.operands s.globalId with
  | none => rfl
  | some p =>
    have := (h.operands _ p.1 p.2 hop).1
    omega

theorem Cascade.not_destroyed_fresh : s.globalId ∉ s.destroyed := fun hd => by
  have := (h.destroyed _ hd).2
  omega

theorem Cascade.createTask (hpos : 1 ≤ s.globalId) : Cascade s.createTask ∅ 0 := by
  have hop := h.operands_fresh
  have hd := h.not_destroyed_fresh
  refine { h with tasks := fun x => ?_, operands := fun id a b hid => ?_, destroyed := fun x hx => ?_ }
  · simp only [State.createTask, Finset.mem_insert, h.tasks]
    by_cases hx : x = s.globalId
    · subst hx
      simp [hop, hd, hpos]
    · constructor
      · rintro (rfl | ⟨h1, h2⟩)
        · exact absurd rfl hx
        · exact ⟨by omega, h2⟩
      · rintro ⟨h1, h2⟩
        exact Or.inr ⟨by omega, h2⟩
  · obtain ⟨h1, h2⟩ := h.operands id a b hid
    exact ⟨h1.trans (Nat.lt_succ_self _), h2⟩
  · obtain ⟨h1, h2⟩ := h.destroyed x hx
    exact ⟨h1, h2.trans (Nat.lt_succ_self _)⟩

theorem Cascade.newLogicalAnd {a b : ℕ} (hab : a ≠ b) (ha : (1 ≤ a ∧ a < s.globalId) ∧ a ∉ s.destroyed)
    (hb : (1 ≤ b ∧ b < s.globalId) ∧ b ∉ s.destroyed) : Cascade (s.newLogicalAnd a b) ∅ 0 := by
  have hop := h.operands_fresh
  have hd := h.not_destroyed_fresh
  have hold : ∀ x, x ≠ s.globalId → (s.newLogicalAnd a b).operands x = s.operands x := fun x hx => by
    simp [State.newLogicalAnd, hx]
  have hnew : (s.newLogicalAnd a b).operands s.globalId = some (a, b) := by simp [State.newLogicalAnd]
  have hlt : ∀ id a b, s.operands id = some (a, b) → a ≠ s.globalId ∧ b ≠ s.globalId := fun id a b hid => by
    obtain ⟨h1, h2, h3, -⟩ := h.operands id a b hid
    omega
  have hobs : ∀ id x, Observes (s.newLogicalAnd a b) id x ↔ Observes s id x ∨ id = s.globalId ∧ (x = a ∨ x = b) := by
    intro id x
    by_cases hid : id = s.globalId
    · subst hid
      simp [Observes, hnew, hop]
    · simp [Observes, hold id hid, hid]
  refine ⟨fun x => ?_, fun id a' b' hid => ?_, h.nodup, fun x hx => ?_, fun l₁ id l₂ a' b' hl hid => ?_, fun x => ?_,
    fun x hx => ?_, fun x hx id => ?_, by simp, by simp, fun id a' b' h0 hid hdid => ?_⟩
  · by_cases hx : x = s.globalId
    · subst hx
      have hnot : s.globalId ∉ s.tasks := fun ht => by
        have := ((h.tasks _).mp ht).1.2
        omega
      simp [State.newLogicalAnd, hnot]
    · rw [hold x hx]
      simp only [State.newLogicalAnd, h.tasks]
      constructor
      · rintro ⟨h1, h2⟩
        exact ⟨by omega, h2⟩
      · rintro ⟨h1, h2⟩
        exact ⟨by omega, h2⟩
  · by_cases hi : id = s.globalId
    · subst hi
      obtain ⟨rfl, rfl⟩ := Prod.mk.inj (Option.some.inj (hid.symm.trans hnew))
      exact ⟨Nat.lt_succ_self _, ha.1, hb.1, hab⟩
    · rw [hold id hi] at hid
      obtain ⟨h1, h2⟩ := h.operands id a' b' hid
      exact ⟨h1.trans (Nat.lt_succ_self _), h2⟩
  · obtain ⟨h1, h2⟩ := h.destroyed x hx
    exact ⟨h1, h2.trans (Nat.lt_succ_self _)⟩
  · have hmem : id ∈ s.destroyed := by
      change s.destroyed = _ at hl
      simp [hl]
    rw [hold id fun he => hd (he ▸ hmem)] at hid
    exact h.before l₁ id l₂ a' b' hl hid
  · simp only [Set.mem_empty_iff_false, or_false]
    by_cases hx : x = s.globalId
    · subst hx
      simp [State.newLogicalAnd, hd]
    · rw [hold x hx]
      have := h.passiveTasks x
      simpa [State.newLogicalAnd, hx] using this
  · by_cases hxn : x = s.globalId
    · subst hxn
      simp [State.newLogicalAnd]
    · rw [hold x hxn, ← h.manager x hx]
      simp only [State.newLogicalAnd, if_neg hxn]
      split_ifs <;> simp
  · rw [hobs, ← h.observers x hx]
    by_cases hxn : x = s.globalId
    · subst hxn
      have hno : ¬Observes s id s.globalId := by
        rintro ⟨a', b', hid, he⟩
        have := hlt id a' b' hid
        omega
      have hne : ¬(s.globalId = a ∨ s.globalId = b) := by omega
      rw [h.observers _ hd]
      simp [State.newLogicalAnd, hno, hne]
    · simp only [State.newLogicalAnd, if_neg hxn]
      split_ifs with hxab
      · simp [hxab, or_comm]
      · simp [hxab]
  · by_cases hi : id = s.globalId
    · subst hi
      obtain ⟨rfl, rfl⟩ := Prod.mk.inj (Option.some.inj (hid.symm.trans hnew))
      exact ⟨Or.inl (Or.inl ha.2), ⟨a', b'⟩, by simp [State.newLogicalAnd],
        ⟨fun _ => rfl, fun hw => absurd (Or.inl ha.2) hw⟩, fun _ => rfl, fun hw => absurd (Or.inl hb.2) hw⟩
    · rw [hold id hi] at hid
      obtain ⟨hw, t, ht, hshow⟩ := h.alive id a' b' h0 hid hdid
      exact ⟨hw, t, by simpa [State.newLogicalAnd, hi] using ht, hshow⟩

theorem Cascade.finishTask (order : VisitingOrder) {id : ℕ} (hid : id ∈ s.tasks) :
    ∃ s', s.finishTask order id = some s' ∧ Cascade s' ∅ 0 ∧ Kept (s.destroy id) s' := by
  obtain ⟨hrange, hop, hd⟩ := (h.tasks id).mp hid
  have hbusy : Cascade s ∅ id :=
    { h with
      alive := fun i a b _ hi hdi => h.alive i a b (by have := h.operands i a b hi; omega) hi hdi }
  have hcascade := hbusy.destroy hrange hd (by simp [hop]) (by simp)
  have hcard : (undestroyed (s.destroy id)).card ≤ s.globalId :=
    (Finset.card_filter_le _ _).trans (Finset.card_range _).le
  have hevent : EventSpec order s.globalId := event_spec s.globalId
  obtain ⟨s', hs', hc, hk⟩ := notify_spec hevent (by simp)
    (show id ∈ (s.destroy id).destroyed by simp [State.destroy]) hcascade hcard
  exact ⟨s', by rw [State.finishTask, if_pos hid, hs'], hc, hk⟩

end Operations

section Holding

variable {s s' : State} {e : EventTask}

theorem LeafOf.le (h : Cascade s ∅ 0) {l x : ℕ} (hl : LeafOf s l x) : l ≤ x := by
  induction hl with
  | self => exact le_rfl
  | @left id a b hop _ ih =>
    have := h.operands id a b hop
    omega
  | @right id a b hop _ ih =>
    have := h.operands id a b hop
    omega

theorem LeafOf.congr (h : Cascade s ∅ 0) {n : ℕ} (hop : ∀ x < n, s'.operands x = s.operands x) {l x : ℕ} (hx : x < n)
    (hl : LeafOf s l x) : LeafOf s' l x := by
  induction hl with
  | self h1 hnone => exact .self h1 ((hop l hx).trans hnone)
  | @left id a b hid _ ih =>
    have := h.operands id a b hid
    exact .left ((hop id hx).trans hid) (ih (by omega))
  | @right id a b hid _ ih =>
    have := h.operands id a b hid
    exact .right ((hop id hx).trans hid) (ih (by omega))

/-- The tasks combined into an event that are not finished are the unfinished tasks below its task. -/
structure Holds (s : State) (e : EventTask) : Prop where
  known : e.taskId = 0 ∨ (1 ≤ e.taskId ∧ e.taskId < s.globalId)
  leaves : ∀ l ∈ e.leaves, (1 ≤ l ∧ l < s.globalId) ∧ s.operands l = none
  mem_iff : ∀ l ∈ s.tasks, l ∈ e.leaves ↔ LeafOf s l e.taskId

/-- Tasks are only added, and finish. -/
structure Grows (s s' : State) : Prop where
  globalId : s.globalId ≤ s'.globalId
  operands : ∀ x < s.globalId, s'.operands x = s.operands x
  tasks : ∀ l ∈ s'.tasks, l < s.globalId → l ∈ s.tasks

theorem not_leafOf_zero (h : Cascade s ∅ 0) {l : ℕ} : ¬LeafOf s l 0 := by
  intro hl
  cases hl with
  | self h1 => omega
  | @left _ a b hop =>
    have := h.operands 0 a b hop
    omega
  | @right _ a b hop =>
    have := h.operands 0 a b hop
    omega

theorem Holds.grows (he : Holds s e) (h : Cascade s ∅ 0) (h' : Cascade s' ∅ 0) (hg : Grows s s') : Holds s' e where
  known := he.known.imp_right fun hk => ⟨hk.1, hk.2.trans_le hg.globalId⟩
  leaves l hl := by
    obtain ⟨hl', hop⟩ := he.leaves l hl
    exact ⟨⟨hl'.1, hl'.2.trans_le hg.globalId⟩, (hg.operands l hl'.2).trans hop⟩
  mem_iff l hl := by
    rcases he.known with h0 | hk
    · by_cases hlt : l < s.globalId
      · rw [he.mem_iff l (hg.tasks l hl hlt), h0]
        exact iff_of_false (not_leafOf_zero h) (not_leafOf_zero h')
      · rw [h0]
        exact iff_of_false (fun hin => hlt (he.leaves l hin).1.2) (not_leafOf_zero h')
    · by_cases hlt : l < s.globalId
      · rw [he.mem_iff l (hg.tasks l hl hlt)]
        exact ⟨LeafOf.congr h hg.operands hk.2, LeafOf.congr h' (fun x hx => (hg.operands x hx).symm) hk.2⟩
      · refine iff_of_false (fun hin => hlt (he.leaves l hin).1.2) fun hleaf => ?_
        have := hleaf.le h'
        omega

/-- An event is reported finished exactly when all tasks combined into it are finished. -/
theorem Holds.isFinished_iff (he : Holds s e) (h : Cascade s ∅ 0) :
    s.isFinished e.taskId = true ↔ ∀ l ∈ e.leaves, l ∈ s.destroyed := by
  have hleaf : ∀ l ∈ e.leaves, l ∉ s.destroyed → l ∈ s.tasks := fun l hl hd =>
    (h.tasks l).mpr ⟨(he.leaves l hl).1, (he.leaves l hl).2, hd⟩
  rw [← not_iff_not, Bool.not_eq_true, h.not_isFinished_iff]
  push Not
  constructor
  · rintro ⟨hrange, hd⟩
    obtain ⟨l, hl, hleaf⟩ := (h.unfinished_iff hrange).mp hd
    exact ⟨l, (he.mem_iff l hl).mpr hleaf, ((h.tasks l).mp hl).2.2⟩
  · rintro ⟨l, hl, hd⟩
    have ht := hleaf l hl hd
    have hlf := (he.mem_iff l ht).mp hl
    rcases he.known with h0 | hk
    · rw [h0] at hlf
      exact absurd hlf (not_leafOf_zero h)
    · exact ⟨hk, (h.unfinished_iff hk).mpr ⟨l, ht, hlf⟩⟩

theorem not_leafOf_of_isFinished (h : Cascade s ∅ 0) {x l : ℕ} (hx : x = 0 ∨ (1 ≤ x ∧ x < s.globalId))
    (hf : s.isFinished x = true) (hl : l ∈ s.tasks) : ¬LeafOf s l x := by
  intro hleaf
  rcases hx with rfl | hx
  · exact not_leafOf_zero h hleaf
  · have hd := (h.unfinished_iff hx).mpr ⟨l, hl, hleaf⟩
    rw [h.not_isFinished_iff.mpr ⟨hx, hd⟩] at hf
    cases hf

theorem Holds.plusAssign {e' : EventTask} (h : Cascade s ∅ 0) (he : Holds s e) (he' : Holds s e') :
    Cascade (s.plusAssign e.taskId e'.taskId).1 ∅ 0 ∧ Grows s (s.plusAssign e.taskId e'.taskId).1 ∧
      Holds (s.plusAssign e.taskId e'.taskId).1 ⟨(s.plusAssign e.taskId e'.taskId).2, e.leaves ∪ e'.leaves⟩ := by
  have hsame : Grows s s := ⟨le_rfl, fun _ _ => rfl, fun _ hl _ => hl⟩
  have hleaves : ∀ l ∈ e.leaves ∪ e'.leaves, (1 ≤ l ∧ l < s.globalId) ∧ s.operands l = none := fun l hl =>
    (Finset.mem_union.mp hl).elim (he.leaves l) (he'.leaves l)
  rw [State.plusAssign]
  split_ifs with heq hf hf'
  · refine ⟨h, hsame, he.known, hleaves, fun l hl => ?_⟩
    rw [Finset.mem_union, he.mem_iff l hl, he'.mem_iff l hl, ← heq, or_self]
  · refine ⟨h, hsame, he'.known, hleaves, fun l hl => ?_⟩
    rw [Finset.mem_union, he.mem_iff l hl, he'.mem_iff l hl]
    simp [not_leafOf_of_isFinished h he.known hf hl]
  · refine ⟨h, hsame, he.known, hleaves, fun l hl => ?_⟩
    rw [Finset.mem_union, he.mem_iff l hl, he'.mem_iff l hl]
    simp [not_leafOf_of_isFinished h he'.known hf' hl]
  · rw [Bool.not_eq_true] at hf hf'
    have ha := h.not_isFinished_iff.mp hf
    have hb := h.not_isFinished_iff.mp hf'
    have hnew := h.newLogicalAnd heq ha hb
    have hgrows : Grows s (s.newLogicalAnd e.taskId e'.taskId) :=
      ⟨Nat.le_succ _, fun x hx => by simp [State.newLogicalAnd, hx.ne], fun l hl _ => hl⟩
    have hop : (s.newLogicalAnd e.taskId e'.taskId).operands s.globalId = some (e.taskId, e'.taskId) := by
      simp [State.newLogicalAnd]
    have hge := he.grows h hnew hgrows
    have hge' := he'.grows h hnew hgrows
    refine ⟨hnew, hgrows, Or.inr ⟨show 1 ≤ s.globalId by omega, Nat.lt_succ_self _⟩, fun l hl => ?_, fun l hl => ?_⟩
    · exact (Finset.mem_union.mp hl).elim (hge.leaves l) (hge'.leaves l)
    · rw [Finset.mem_union, hge.mem_iff l hl, hge'.mem_iff l hl]
      constructor
      · rintro (hleaf | hleaf)
        · exact .left hop hleaf
        · exact .right hop hleaf
      · intro hleaf
        cases hleaf with
        | self _ hnone => simp [hop] at hnone
        | left hop' hleaf =>
          obtain ⟨rfl, rfl⟩ := Prod.mk.inj (Option.some.inj (hop'.symm.trans hop))
          exact Or.inl hleaf
        | right hop' hleaf =>
          obtain ⟨rfl, rfl⟩ := Prod.mk.inj (Option.some.inj (hop'.symm.trans hop))
          exact Or.inr hleaf

end Holding

/-- The state of a program outside of notifications. -/
structure Program.Valid (p : Program) : Prop where
  cascade : Cascade p.state ∅ 0
  pos : 1 ≤ p.state.globalId
  holds : ∀ e ∈ p.events, Holds p.state e

namespace Program

variable {p : Program}

theorem Valid.event (h : p.Valid) (i : ℕ) : Holds p.state (p.event i) := by
  rw [Program.event, List.getD_eq_getElem?_getD]
  cases hi : p.events[i]? with
  | none =>
    exact ⟨Or.inl rfl, by simp, fun l _ => iff_of_false (by simp) (not_leafOf_zero h.cascade)⟩
  | some e => exact h.holds e (List.mem_of_getElem? hi)

theorem Valid.sum (h : p.Valid) (left right : ℕ) : Cascade (p.sum left right).1 ∅ 0 ∧
    Grows p.state (p.sum left right).1 ∧ Holds (p.sum left right).1 (p.sum left right).2 :=
  Holds.plusAssign h.cascade (h.event left) (h.event right)

theorem Valid.apply (h : p.Valid) (order : VisitingOrder) (operation : Operation) :
    ∃ p', p.apply order operation = some p' ∧ p'.Valid := by
  cases operation with
  | createTask =>
    have hc := h.cascade.createTask h.pos
    have hgrows : Grows p.state p.state.createTask := by
      refine ⟨Nat.le_succ _, fun _ _ => rfl, fun l hl hlt => ?_⟩
      rcases Finset.mem_insert.mp hl with rfl | hl
      · omega
      · exact hl
    refine ⟨_, rfl, hc, h.pos.trans (Nat.le_succ _), fun e he => ?_⟩
    rcases List.mem_append.mp he with he | he
    · exact (h.holds e he).grows h.cascade hc hgrows
    · rw [List.mem_singleton] at he
      subst he
      have hop : p.state.createTask.operands p.state.globalId = none := h.cascade.operands_fresh
      refine ⟨Or.inr ⟨h.pos, Nat.lt_succ_self _⟩, fun l hl => ?_, fun l _ => ?_⟩
      · rw [Finset.mem_singleton] at hl
        subst hl
        exact ⟨⟨h.pos, Nat.lt_succ_self _⟩, hop⟩
      · rw [Finset.mem_singleton]
        constructor
        · rintro rfl
          exact .self h.pos hop
        · intro hleaf
          cases hleaf with
          | self => rfl
          | left hop' => simp [hop] at hop'
          | right hop' => simp [hop] at hop'
  | emptyEvent =>
    refine ⟨_, rfl, h.cascade, h.pos, fun e he => ?_⟩
    rcases List.mem_append.mp he with he | he
    · exact h.holds e he
    · rw [List.mem_singleton] at he
      subst he
      exact ⟨Or.inl rfl, by simp, fun l _ => iff_of_false (by simp) (not_leafOf_zero h.cascade)⟩
  | finishTask id =>
    by_cases hid : id ∈ p.state.tasks
    · obtain ⟨s', hs', hc, hk⟩ := h.cascade.finishTask order hid
      have hgrows : Grows p.state s' :=
        ⟨hk.globalId.ge, fun x _ => congrFun hk.operands x, fun l hl _ => by
          rw [hk.tasks] at hl
          exact Finset.mem_of_mem_erase hl⟩
      exact ⟨{ p with state := s' }, by rw [Program.apply, hs']; rfl, hc, h.pos.trans hgrows.globalId,
        fun e he => (h.holds e he).grows h.cascade hc hgrows⟩
    · exact ⟨p, by rw [Program.apply, State.finishTask, if_neg hid]; rfl, h⟩
  | plus left right =>
    obtain ⟨hc, hgrows, hnew⟩ := h.sum left right
    refine ⟨_, rfl, hc, h.pos.trans hgrows.globalId, fun e he => ?_⟩
    rcases List.mem_append.mp he with he | he
    · exact (h.holds e he).grows h.cascade hc hgrows
    · rw [List.mem_singleton] at he
      exact he ▸ hnew
  | plusAssign left right =>
    obtain ⟨hc, hgrows, hnew⟩ := h.sum left right
    refine ⟨_, rfl, hc, h.pos.trans hgrows.globalId, fun e he => ?_⟩
    rcases List.mem_or_eq_of_mem_set he with he | rfl
    · exact (h.holds e he).grows h.cascade hc hgrows
    · exact hnew

theorem Valid.init : (⟨State.init, []⟩ : Program).Valid where
  cascade := by
    refine ⟨?_, ?_, ?_, ?_, ?_, ?_, ?_, ?_, ?_, ?_, ?_⟩ <;> simp [State.init, Observes]
    omega
  pos := le_rfl
  holds := by simp

theorem run_valid (order : VisitingOrder) (operations : List Operation) :
    ∃ p, run order operations = some p ∧ p.Valid := by
  induction operations using List.reverseRecOn with
  | nil => exact ⟨_, rfl, Valid.init⟩
  | append_singleton l operation ih =>
    obtain ⟨p, hp, hvalid⟩ := ih
    obtain ⟨p', hp', hvalid'⟩ := hvalid.apply order operation
    refine ⟨p', ?_, hvalid'⟩
    rw [run] at hp ⊢
    rw [List.foldlM_append, hp]
    simpa using hp'

end Program

/-- Tasks are only added, and the finished one is erased. -/
structure Next (s s' : State) (operation : Operation) : Prop where
  globalId : s.globalId ≤ s'.globalId
  operands : ∀ x < s.globalId, s'.operands x = s.operands x
  tasks : ∀ l < s.globalId, l ∈ s'.tasks ↔ l ∈ s.tasks ∧ operation ≠ .finishTask l
  fresh : ∀ l, s.globalId ≤ l → l < s'.globalId → s'.operands l = none → l ∈ s'.tasks

theorem Next.refl {s : State} {operation : Operation} (h : ∀ l ∈ s.tasks, operation ≠ .finishTask l) :
    Next s s operation where
  globalId := le_rfl
  operands _ _ := rfl
  tasks l _ := (and_iff_left_of_imp (h l)).symm
  fresh _ hge hlt := absurd hlt (not_lt.mpr hge)

namespace Program

variable {order : VisitingOrder} {p p' : Program} {operations : List Operation} {operation : Operation} {l : ℕ}

theorem next_sum (left right : ℕ) (h : ∀ l, operation ≠ .finishTask l) : Next p.state (p.sum left right).1 operation := by
  rw [Program.sum, State.plusAssign]
  split_ifs
  · exact .refl fun l _ => h l
  · exact .refl fun l _ => h l
  · exact .refl fun l _ => h l
  · refine ⟨Nat.le_succ _, fun x hx => by simp [State.newLogicalAnd, hx.ne], fun l _ => (and_iff_left (h l)).symm,
      fun l hge hlt hnone => ?_⟩
    obtain rfl : l = p.state.globalId := le_antisymm (Nat.lt_succ_iff.mp hlt) hge
    simp [State.newLogicalAnd] at hnone

theorem Valid.next (h : p.Valid) (ha : p.apply order operation = some p') : Next p.state p'.state operation := by
  cases operation with
  | createTask =>
    obtain rfl := Option.some.inj ha
    refine ⟨Nat.le_succ _, fun _ _ => rfl, fun l hl => ?_, fun l hge hlt _ => ?_⟩
    · simp [State.createTask, hl.ne]
    · obtain rfl : l = p.state.globalId := le_antisymm (Nat.lt_succ_iff.mp hlt) hge
      exact Finset.mem_insert_self _ _
  | emptyEvent =>
    obtain rfl := Option.some.inj ha
    exact .refl (by simp)
  | finishTask id =>
    obtain ⟨s', hs', rfl⟩ := Option.map_eq_some_iff.mp ha
    by_cases hid : id ∈ p.state.tasks
    · obtain ⟨s₁, hs₁, -, hk⟩ := h.cascade.finishTask order hid
      obtain rfl := Option.some.inj (hs₁.symm.trans hs')
      refine ⟨hk.globalId.ge, fun x _ => congrFun hk.operands x, fun l _ => ?_, fun l hge hlt => ?_⟩
      · rw [hk.tasks]
        simp [State.destroy, and_comm, eq_comm]
      · exact absurd (hlt.trans_eq hk.globalId) (not_lt.mpr hge)
    · rw [State.finishTask, if_neg hid] at hs'
      obtain rfl := Option.some.inj hs'
      refine .refl fun l hl heq => hid ?_
      obtain rfl := Operation.finishTask.inj heq
      exact hl
  | plus left right =>
    obtain rfl := Option.some.inj ha
    exact next_sum left right (by simp)
  | plusAssign left right =>
    obtain rfl := Option.some.inj ha
    exact next_sum left right (by simp)

theorem run_append (hrun : run order operations = some p) :
    run order (operations ++ [operation]) = p.apply order operation := by
  rw [run] at hrun ⊢
  rw [List.foldlM_append, hrun]
  simp

/-- One of the operations finishes a task that was created before. -/
def Finishes (order : VisitingOrder) (operations : List Operation) (l : ℕ) : Prop :=
  ∃ before after p, operations = before ++ .finishTask l :: after ∧ run order before = some p ∧ l < p.state.globalId

theorem finishes_append (hrun : run order operations = some p) : Finishes order (operations ++ [operation]) l ↔
    Finishes order operations l ∨ operation = .finishTask l ∧ l < p.state.globalId := by
  constructor
  · rintro ⟨before, after, p₁, heq, hp₁, hl⟩
    rcases List.eq_nil_or_concat after with rfl | ⟨after, x, rfl⟩
    · obtain ⟨rfl, hop⟩ := List.append_inj' heq rfl
      obtain rfl := Option.some.inj (hrun.symm.trans hp₁)
      exact .inr ⟨List.head_eq_of_cons_eq hop, hl⟩
    · rw [List.concat_eq_append, ← List.cons_append, ← List.append_assoc] at heq
      exact .inl ⟨before, after, p₁, (List.append_inj' heq rfl).1, hp₁, hl⟩
  · rintro (⟨before, after, p₁, rfl, hp₁, hl⟩ | ⟨rfl, hl⟩)
    · exact ⟨before, after ++ [operation], p₁, by simp, hp₁, hl⟩
    · exact ⟨operations, [], p, rfl, hrun, hl⟩

/-- A task that was created without operands is destroyed exactly if an operation finishes it. -/
theorem destroyed_iff_finishes (hrun : run order operations = some p) (hl : 1 ≤ l ∧ l < p.state.globalId)
    (hop : p.state.operands l = none) : l ∈ p.state.destroyed ↔ Finishes order operations l := by
  suffices h : (Finishes order operations l → l < p.state.globalId) ∧ (1 ≤ l → l < p.state.globalId →
      p.state.operands l = none → (l ∈ p.state.tasks ↔ ¬ Finishes order operations l)) by
    obtain ⟨p₁, hp₁, hvalid⟩ := run_valid order operations
    obtain rfl := Option.some.inj (hrun.symm.trans hp₁)
    rw [← not_iff_not, ← h.2 hl.1 hl.2 hop, hvalid.cascade.tasks]
    simp [hl, hop]
  clear hl hop
  induction operations using List.reverseRecOn generalizing p with
  | nil =>
    obtain rfl := Option.some.inj hrun
    refine ⟨?_, fun h1 h2 => absurd h2 (not_lt.mpr h1)⟩
    rintro ⟨before, after, p₁, heq, -⟩
    simp at heq
  | append_singleton operations operation ih =>
    obtain ⟨p₁, hp₁, hvalid⟩ := run_valid order operations
    obtain ⟨hlt, htasks⟩ := ih hp₁
    have hnext := hvalid.next ((run_append hp₁).symm.trans hrun)
    rw [finishes_append hp₁]
    refine ⟨fun hf => ?_, fun h1 h2 hop => ?_⟩
    · exact (hf.elim hlt fun h => h.2).trans_le hnext.globalId
    · by_cases hold : l < p₁.state.globalId
      · rw [hnext.tasks l hold, htasks h1 hold ((hnext.operands l hold).symm.trans hop), not_or]
        simp [hold]
      · refine iff_of_true (hnext.fresh l (not_lt.mp hold) h2 hop) ?_
        rintro (hf | ⟨-, h⟩)
        · exact hold (hlt hf)
        · exact hold h

end Program

/-- For every sequence of operations and every order of the observers: no deleted object is used and all calls
return; an event is finished exactly when all tasks combined into it are; a `TaskLogicalAnd` is deleted once, and
after both its operands; the passive tasks are those that are not deleted; and the tasks without operands are
destroyed by the operations that finish them. -/
theorem event_algebra (order : VisitingOrder) (operations : List Operation) :
    ∃ p, Program.run order operations = some p ∧
      (∀ e ∈ p.events, p.state.isFinished e.taskId = true ↔ ∀ l ∈ e.leaves, l ∈ p.state.destroyed) ∧
      (∀ id a b, p.state.operands id = some (a, b) →
        p.state.destroyed.count id = (if a ∈ p.state.destroyed ∧ b ∈ p.state.destroyed then 1 else 0) ∧
        ∀ l₁ l₂, p.state.destroyed = l₁ ++ id :: l₂ → a ∈ l₁ ∧ b ∈ l₁) ∧
      (∀ id, id ∈ p.state.passiveTasks ↔ (p.state.operands id).isSome = true ∧ id ∉ p.state.destroyed) ∧
      (¬(p.state.tasks.card ≠ 0 ∨ p.state.passiveTasks.card ≠ 0) ↔
        ∀ l, (1 ≤ l ∧ l < p.state.globalId) ∧ p.state.operands l = none → l ∈ p.state.destroyed) ∧
      (∀ e ∈ p.events, ∀ l ∈ e.leaves, (1 ≤ l ∧ l < p.state.globalId) ∧ p.state.operands l = none) ∧
      ∀ l, (1 ≤ l ∧ l < p.state.globalId) ∧ p.state.operands l = none →
        (l ∈ p.state.destroyed ↔ Program.Finishes order operations l) := by
  obtain ⟨p, hp, h⟩ := Program.run_valid order operations
  have hc := h.cascade
  have hpassive : ∀ id, id ∈ p.state.passiveTasks ↔ (p.state.operands id).isSome = true ∧ id ∉ p.state.destroyed :=
    fun id => by simpa using hc.passiveTasks id
  refine ⟨p, hp, fun e he => (h.holds e he).isFinished_iff hc, fun id a b hop => ⟨?_, fun l₁ l₂ hl =>
    hc.before l₁ id l₂ a b hl hop⟩, hpassive, ?_, fun e he => (h.holds e he).leaves, fun l hl =>
    Program.destroyed_iff_finishes hp hl.1 hl.2⟩
  · have hiff := hc.destroyed_iff hop
    split_ifs with hd
    · exact List.count_eq_one_of_mem hc.nodup (hiff.mpr hd)
    · exact List.count_eq_zero.mpr fun hid => hd (hiff.mp hid)
  · simp only [not_or, not_not, Finset.card_eq_zero]
    constructor
    · rintro ⟨htasks, -⟩ l ⟨hl, hop⟩
      by_contra hd
      have hin := (hc.tasks l).mpr ⟨hl, hop, hd⟩
      simp [htasks] at hin
    · intro hall
      have htasks : p.state.tasks = ∅ := Finset.eq_empty_of_forall_notMem fun l hl => by
        obtain ⟨h1, h2, h3⟩ := (hc.tasks l).mp hl
        exact h3 (hall l ⟨h1, h2⟩)
      refine ⟨htasks, Finset.eq_empty_of_forall_notMem fun id hid => ?_⟩
      obtain ⟨hsome, hd⟩ := (hpassive id).mp hid
      obtain ⟨⟨a, b⟩, hop⟩ := Option.isSome_iff_exists.mp hsome
      obtain ⟨h1, h2, -⟩ := hc.operands id a b hop
      obtain ⟨l, hl, -⟩ := (hc.unfinished_iff ⟨by omega, h1⟩).mp hd
      simp [htasks] at hl

def Observer.key : Observer → ℕ
  | .manager => 0
  | .logicalAnd id => id + 1

def Observer.ofKey : ℕ → Observer
  | 0 => .manager
  | id + 1 => .logicalAnd id

theorem Observer.ofKey_key (o : Observer) : ofKey o.key = o := by cases o <;> rfl

theorem Observer.key_ofKey (n : ℕ) : (ofKey n).key = n := by cases n <;> rfl

/-- The manager first, then by id. -/
def byId : VisitingOrder where
  visit s := ((List.range (s.sup Observer.key + 1)).map Observer.ofKey).filter (· ∈ s)
  nodup s := (List.nodup_range.map (Function.LeftInverse.injective Observer.key_ofKey)).filter _
  mem_visit s o := by
    simp only [List.mem_filter, List.mem_map, List.mem_range, decide_eq_true_eq, and_iff_right_iff_imp]
    exact fun ho => ⟨o.key, Nat.lt_succ_of_le (Finset.le_sup ho), o.ofKey_key⟩

/-- Three tasks are combined in two steps and finish in another order. -/
def nestedOperations : List Operation :=
  [.createTask, .createTask, .createTask, .plus 0 1, .plus 3 2, .finishTask 2, .finishTask 3, .finishTask 1]

theorem nestedOperations_run : ∀ n : Fin 2,
    ((Program.run byId (nestedOperations.take (7 + n))).any fun p =>
      ⟨5, {1, 2, 3}⟩ ∈ p.events.map (fun e => (e.taskId, e.leaves)) ∧
      p.state.destroyed = [2, 3, 1, 4, 5].take (2 + 3 * n)) = true := by
  decide +kernel

theorem nestedOperations_event (n : Fin 2) {p : Program}
    (h : Program.run byId (nestedOperations.take (7 + n)) = some p) :
    ⟨5, {1, 2, 3}⟩ ∈ p.events ∧ p.state.destroyed = [2, 3, 1, 4, 5].take (2 + 3 * n) := by
  have hrun := nestedOperations_run n
  simp only [h, Option.any_some, decide_eq_true_eq] at hrun
  obtain ⟨⟨taskId, leaves⟩, he, heq⟩ := List.mem_map.mp hrun.1
  obtain ⟨rfl, rfl⟩ := Prod.mk.inj heq
  exact ⟨he, hrun.2⟩

/-- The sum of the three tasks is finished when the last of them is, and not before. -/
theorem event_algebra_nestedOperations :
    (∃ p, Program.run byId nestedOperations = some p ∧ p.state.isFinished 5 = true ∧
      ∀ l ∈ ({1, 2, 3} : Finset ℕ), Program.Finishes byId nestedOperations l) ∧
    ∃ p, Program.run byId nestedOperations.dropLast = some p ∧ p.state.isFinished 5 = false ∧
      ¬ Program.Finishes byId nestedOperations.dropLast 1 := by
  constructor
  · obtain ⟨p, hp, hfinished, -, -, -, hleaves, hfinishes⟩ := event_algebra byId nestedOperations
    obtain ⟨he, hd⟩ := nestedOperations_event 1 hp
    have hmem : ∀ l ∈ ({1, 2, 3} : Finset ℕ), l ∈ p.state.destroyed := by
      rw [hd]
      decide
    exact ⟨p, hp, (hfinished _ he).mpr hmem, fun l hl => (hfinishes l (hleaves _ he l hl)).mp (hmem l hl)⟩
  · obtain ⟨p, hp, hfinished, -, -, -, hleaves, hfinishes⟩ := event_algebra byId nestedOperations.dropLast
    obtain ⟨he, hd⟩ := nestedOperations_event 0 hp
    have hmem : 1 ∉ p.state.destroyed := by
      rw [hd]
      decide
    refine ⟨p, hp, ?_, fun hf => hmem ((hfinishes 1 (hleaves _ he 1 (by decide))).mpr hf)⟩
    rw [← Bool.not_eq_true, hfinished _ he]
    exact fun hall => hmem (hall 1 (by decide))

end PIConGPU.EventSystem
