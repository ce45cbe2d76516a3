import Mathlib

/-!
# The task manager

`Manager::execute` runs all tasks once and keeps its position in an iterator that all its activations share.
A task may do anything while it executes or is deleted, also call the manager again. The call stack is part of
the state, and a step of a task is any action that it can take.
-/
namespace PIConGPU.TaskManager

inductive Frame
  /-- `execute` of the manager in `taskPtr->execute()` -/
  | executing (taskToWait id taskPtr : ℕ)
  /-- `execute` of the manager in the destructor of a task -/
  | deleting (taskToWait id : ℕ)
  /-- a call of `execute` without a use of the result -/
  | calling
  | waitForPassive (taskId : ℕ)
  | waitForActive (taskId : ℕ)
  | waitForAllTasks
  deriving DecidableEq, Repr

inductive Control
  /-- the program, a task or a destructor runs -/
  | user
  /-- `execute` is at the head of its loop -/
  | loop (taskToWait : ℕ)
  /-- `execute` has returned -/
  | returned (taskToWait : ℕ) (result : Bool)
  deriving DecidableEq, Repr

/-- Tasks are known by their ids; `pointer` is the value of the map at an id. No iterator stands for `end()`.
`created` are the tasks not yet added, `finished` the tasks whose `execute()` returned true, `deleted` the
deletions in their order. -/
structure State where
  tasks : Finset ℕ
  pointer : ℕ → ℕ
  passiveTasks : Finset ℕ
  iter : Option ℕ
  globalId : ℕ
  created : Finset ℕ
  finished : Finset ℕ
  deleted : List ℕ
  control : Control
  stack : List Frame

def first (ids : Finset ℕ) : Option ℕ := if h : ids.Nonempty then some (ids.min' h) else none

theorem first_mem {ids : Finset ℕ} {i : ℕ} (h : first ids = some i) : i ∈ ids := by
  rw [first] at h
  split_ifs at h with hne
  obtain rfl := Option.some.inj h
  exact ids.min'_mem hne

namespace State

def init : State where
  tasks := ∅
  pointer := fun _ => 0
  passiveTasks := ∅
  iter := none
  globalId := 1
  created := ∅
  finished := ∅
  deleted := []
  control := .user
  stack := []

variable (s : State)

def getActiveITaskIfNotFinished (id : ℕ) : Option ℕ := if id ∈ s.tasks then some (s.pointer id) else none

def newTask (taskPtr : ℕ) : State :=
  { s with
    globalId := s.globalId + 1
    pointer := Function.update s.pointer s.globalId taskPtr
    created := insert s.globalId s.created }

def addTask (id : ℕ) : State := { s with tasks := insert id s.tasks, created := s.created.erase id }

def enter (taskToWait : ℕ) : State :=
  { s with
    iter := if s.iter = none then first s.tasks else s.iter
    control := .loop taskToWait }

/-- The loop of `execute` up to the call of a task. The iterator is advanced before the call. -/
def loop (taskToWait : ℕ) : State :=
  match s.iter with
  | none => { s with control := .returned taskToWait false }
  | some id =>
    { s with
      iter := first (s.tasks.filter (id < ·))
      stack := .executing taskToWait id (s.pointer id) :: s.stack
      control := .user }

def leave (taskToWait id : ℕ) : State :=
  if taskToWait = id then { s with iter := none, control := .returned taskToWait true }
  else { s with control := .loop taskToWait }

def executed (taskToWait id taskPtr : ℕ) (result : Bool) : State :=
  if result then
    let s := { s with finished := insert id s.finished }
    -- the task may have been deleted by an activation further down
    if s.getActiveITaskIfNotFinished id = some taskPtr then
      { s with
        tasks := s.tasks.erase id
        deleted := s.deleted ++ [id]
        stack := .deleting taskToWait id :: s.stack
        control := .user }
    else s.leave taskToWait id
  else { s with control := .loop taskToWait }

def push (frame : Frame) : State := { s with stack := frame :: s.stack }

def waitForFinished (taskId : ℕ) : State :=
  if taskId ∈ s.passiveTasks then (s.push (.waitForPassive taskId)).enter 0
  else if s.getActiveITaskIfNotFinished taskId ≠ none then (s.push (.waitForActive taskId)).enter taskId
  else s

def waitForAllTasks : State :=
  if s.tasks.card ≠ 0 ∨ s.passiveTasks.card ≠ 0 then (s.push .waitForAllTasks).enter 0 else s

/-- The caller of `execute` goes on; the conditions of the loops decide about another call. -/
def resume (result : Bool) : Frame → State
  | .waitForPassive taskId =>
    if taskId ∈ s.passiveTasks then (s.push (.waitForPassive taskId)).enter 0 else { s with control := .user }
  | .waitForActive taskId =>
    if result = false ∧ s.getActiveITaskIfNotFinished taskId ≠ none then
      (s.push (.waitForActive taskId)).enter taskId
    else { s with control := .user }
  | .waitForAllTasks => ({ s with control := .user } : State).waitForAllTasks
  | _ => { s with control := .user }

end State

inductive Step : State → State → Prop
  | newTask {s : State} (taskPtr : ℕ) : s.control = .user → Step s (s.newTask taskPtr)
  | addTask {s : State} (id : ℕ) : s.control = .user → id ∈ s.created → Step s (s.addTask id)
  | addPassiveTask {s : State} (id : ℕ) : s.control = .user →
      Step s { s with passiveTasks := insert id s.passiveTasks }
  | event {s : State} (id : ℕ) : s.control = .user → Step s { s with passiveTasks := s.passiveTasks.erase id }
  | execute {s : State} (taskToWait : ℕ) : s.control = .user → Step s ((s.push .calling).enter taskToWait)
  | waitForFinished {s : State} (taskId : ℕ) : s.control = .user → Step s (s.waitForFinished taskId)
  | waitForAllTasks {s : State} : s.control = .user → Step s s.waitForAllTasks
  | loop {s : State} {taskToWait : ℕ} : s.control = .loop taskToWait → Step s (s.loop taskToWait)
  | executed {s : State} {taskToWait id taskPtr : ℕ} {stack : List Frame} (result : Bool) : s.control = .user →
      s.stack = .executing taskToWait id taskPtr :: stack →
      Step s (({ s with stack := stack } : State).executed taskToWait id taskPtr result)
  | destroyed {s : State} {taskToWait id : ℕ} {stack : List Frame} : s.control = .user →
      s.stack = .deleting taskToWait id :: stack → Step s (({ s with stack := stack } : State).leave taskToWait id)
  | resume {s : State} {taskToWait : ℕ} {result : Bool} {frame : Frame} {stack : List Frame} :
      s.control = .returned taskToWait result → s.stack = frame :: stack →
      Step s (({ s with stack := stack } : State).resume result frame)

/-- The tasks and the call stack. -/
structure WellFormed (s : State) : Prop where
  known : ∀ id, id ∈ s.created ∨ id ∈ s.tasks ∨ id ∈ s.finished → id < s.globalId
  created : ∀ id ∈ s.created, id ∉ s.tasks ∧ id ∉ s.finished
  disjoint : ∀ id ∈ s.tasks, id ∉ s.finished
  nodup : s.deleted.Nodup
  mem_deleted : ∀ id, id ∈ s.deleted ↔ id ∈ s.finished
  executing : ∀ w id p, .executing w id p ∈ s.stack → s.pointer id = p ∧ (id ∈ s.tasks ∨ id ∈ s.finished)
  deleting : ∀ w id, .deleting w id ∈ s.stack → id ∈ s.finished

/-- The iterator: it is behind the task that runs, and at the end when `execute` returns. -/
structure Iterator (s : State) : Prop where
  mem : ∀ i, s.iter = some i → i ∈ s.tasks
  behind : s.control = .user → ∀ w id p stack, s.stack = .executing w id p :: stack → ∀ i, s.iter = some i → id < i
  ended : ∀ w b, s.control = .returned w b → s.iter = none
  found : ∀ w, s.control = .returned w true → w ∈ s.finished

section Steps

variable {s : State}

theorem WellFormed.push (h : WellFormed s) {frame : Frame} (hf : ∀ w id p, frame ≠ .executing w id p)
    (hf' : ∀ w id, frame ≠ .deleting w id) : WellFormed (s.push frame) :=
  { h with
    executing := fun w id p hmem => h.executing w id p (by
      rcases List.mem_cons.mp hmem with he | hmem
      · exact absurd he.symm (hf w id p)
      · exact hmem)
    deleting := fun w id hmem => h.deleting w id (by
      rcases List.mem_cons.mp hmem with he | hmem
      · exact absurd he.symm (hf' w id)
      · exact hmem) }

theorem WellFormed.pop (h : WellFormed s) {frame : Frame} {stack : List Frame} (hs : s.stack = frame :: stack) :
    WellFormed { s with stack := stack } :=
  { h with
    executing := fun w id p hmem => h.executing w id p (by rw [hs]; exact List.mem_cons_of_mem _ hmem)
    deleting := fun w id hmem => h.deleting w id (by rw [hs]; exact List.mem_cons_of_mem _ hmem) }

theorem WellFormed.enter (h : WellFormed s) (taskToWait : ℕ) : WellFormed (s.enter taskToWait) := { h with }

/-- `execute` starts with the first task or goes on where the iterator is. -/
theorem Iterator.enter (h : ∀ i, s.iter = some i → i ∈ s.tasks) (taskToWait : ℕ) : Iterator (s.enter taskToWait) where
  mem i hi := by
    simp only [State.enter] at hi
    split_ifs at hi with hnone
    · exact first_mem hi
    · exact h i hi
  behind hc := by simp [State.enter] at hc
  ended w b hc := by simp [State.enter] at hc
  found w hc := by simp [State.enter] at hc

theorem WellFormed.newTask (h : WellFormed s) (taskPtr : ℕ) : WellFormed (s.newTask taskPtr) where
  known id hid := by
    simp only [State.newTask, Finset.mem_insert] at hid ⊢
    rcases hid with (rfl | hid) | hid
    · exact Nat.lt_succ_self _
    · exact (h.known id (Or.inl hid)).trans (Nat.lt_succ_self _)
    · exact (h.known id (Or.inr hid)).trans (Nat.lt_succ_self _)
  created id hid := by
    have hnew := h.known s.globalId
    rcases Finset.mem_insert.mp hid with rfl | hid
    · exact ⟨fun ht => by have := hnew (Or.inr (Or.inl ht)); omega, fun hf => by have := hnew (Or.inr (Or.inr hf)); omega⟩
    · exact h.created id hid
  disjoint := h.disjoint
  nodup := h.nodup
  mem_deleted := h.mem_deleted
  executing w id p hmem := by
    obtain ⟨hp, hid⟩ := h.executing w id p hmem
    have hne : id ≠ s.globalId := (h.known id (Or.inr hid)).ne
    exact ⟨(Function.update_of_ne hne _ _).trans hp, hid⟩
  deleting := h.deleting

theorem WellFormed.addTask (h : WellFormed s) {id : ℕ} (hid : id ∈ s.created) : WellFormed (s.addTask id) where
  known i hi := by
    simp only [State.addTask, Finset.mem_insert, Finset.mem_erase] at hi
    rcases hi with hi | (rfl | hi) | hi
    · exact h.known i (Or.inl hi.2)
    · exact h.known i (Or.inl hid)
    · exact h.known i (Or.inr (Or.inl hi))
    · exact h.known i (Or.inr (Or.inr hi))
  created i hi := by
    obtain ⟨hne, hi⟩ := Finset.mem_erase.mp hi
    obtain ⟨h1, h2⟩ := h.created i hi
    exact ⟨fun ht => (Finset.mem_insert.mp ht).elim hne h1, h2⟩
  disjoint i hi := by
    rcases Finset.mem_insert.mp hi with rfl | hi
    · exact (h.created i hid).2
    · exact h.disjoint i hi
  nodup := h.nodup
  mem_deleted := h.mem_deleted
  executing w i p hmem := by
    obtain ⟨hp, hi⟩ := h.executing w i p hmem
    exact ⟨hp, hi.imp_left (Finset.mem_insert_of_mem ·)⟩
  deleting := h.deleting

theorem WellFormed.leave (h : WellFormed s) (taskToWait id : ℕ) : WellFormed (s.leave taskToWait id) := by
  rw [State.leave]
  split_ifs
  · exact { h with }
  · exact { h with }

theorem Iterator.leave (h : ∀ i, s.iter = some i → i ∈ s.tasks) {taskToWait id : ℕ} (hid : id ∈ s.finished) :
    Iterator (s.leave taskToWait id) := by
  rw [State.leave]
  split_ifs with hw
  · exact ⟨by simp, by simp, by simp, fun w hc => by simp only [Control.returned.injEq] at hc; rw [← hc.1, hw]; exact hid⟩
  · exact ⟨h, by simp, by simp, by simp⟩

/-- A task that has not been deleted yet is taken from the map before its destructor runs. -/
theorem WellFormed.executed (h : WellFormed s) {taskToWait id taskPtr : ℕ} (hp : s.pointer id = taskPtr)
    (hid : id ∈ s.tasks ∨ id ∈ s.finished) (result : Bool) : WellFormed (s.executed taskToWait id taskPtr result) := by
  rw [State.executed]
  split_ifs with hr
  · by_cases ht : id ∈ s.tasks
    · have hactive : ({ s with finished := insert id s.finished } : State).getActiveITaskIfNotFinished id = some taskPtr := by
        simp [State.getActiveITaskIfNotFinished, ht, hp]
      dsimp only
      rw [if_pos hactive]
      have hnew : id ∉ s.deleted := fun hd => h.disjoint id ht ((h.mem_deleted id).mp hd)
      refine ⟨fun i hi => ?_, fun i hi => ?_, fun i hi => ?_, ?_, fun i => ?_, fun w i p hmem => ?_, fun w i hmem => ?_⟩
      · have hk := h.known i
        have hk' := h.known id (Or.inr hid)
        simp only [Finset.mem_erase, Finset.mem_insert] at hi
        rcases hi with hi | hi | rfl | hi
        · exact hk (Or.inl hi)
        · exact hk (Or.inr (Or.inl hi.2))
        · exact hk'
        · exact hk (Or.inr (Or.inr hi))
      · obtain ⟨h1, h2⟩ := h.created i hi
        have hne : i ≠ id := fun he => h1 (he ▸ ht)
        simp [h1, h2, hne]
      · obtain ⟨hne, hi⟩ := Finset.mem_erase.mp hi
        simp [hne, h.disjoint i hi]
      · exact List.nodup_append.mpr ⟨h.nodup, by simp, fun a ha b hb => by
          rw [List.mem_singleton] at hb
          exact fun he => hnew (hb ▸ he ▸ ha)⟩
      · simp only [List.mem_append, List.mem_singleton, Finset.mem_insert, h.mem_deleted]
        tauto
      · rcases List.mem_cons.mp hmem with he | hmem
        · cases he
        · obtain ⟨h1, h2⟩ := h.executing w i p hmem
          refine ⟨h1, ?_⟩
          by_cases hi : i = id
          · simp [hi]
          · simpa [hi] using h2
      · rcases List.mem_cons.mp hmem with he | hmem
        · obtain ⟨-, rfl⟩ := Frame.deleting.inj he
          simp
        · exact Finset.mem_insert_of_mem (h.deleting w i hmem)
    · have hf : id ∈ s.finished := hid.resolve_left ht
      have hactive : ({ s with finished := insert id s.finished } : State).getActiveITaskIfNotFinished id ≠ some taskPtr := by
        simp [State.getActiveITaskIfNotFinished, ht]
      dsimp only
      rw [if_neg hactive, Finset.insert_eq_self.mpr hf]
      exact h.leave taskToWait id
  · exact { h with }

theorem Iterator.executed (h : ∀ i, s.iter = some i → i ∈ s.tasks) {taskToWait id taskPtr : ℕ}
    (hbehind : ∀ i, s.iter = some i → id < i) (result : Bool) :
    Iterator (s.executed taskToWait id taskPtr result) := by
  rw [State.executed]
  split_ifs with hr
  · dsimp only
    split_ifs with hactive
    · refine ⟨fun i hi => Finset.mem_erase.mpr ⟨?_, h i hi⟩, fun _ w i p stack hs => ?_, by simp, by simp⟩
      · have := hbehind i hi
        omega
      · cases hs
    · exact Iterator.leave (s := { s with finished := insert id s.finished }) h (Finset.mem_insert_self _ _)
  · exact ⟨h, by simp, by simp, by simp⟩

theorem Iterator.loop (s : State) (taskToWait : ℕ) : Iterator (s.loop taskToWait) := by
  rw [State.loop]
  cases hi : s.iter with
  | none => exact ⟨by simp, by simp, by simp, by simp⟩
  | some id =>
    have hnext : ∀ i, first (s.tasks.filter (id < ·)) = some i → i ∈ s.tasks ∧ id < i := fun i hfirst =>
      Finset.mem_filter.mp (first_mem hfirst)
    refine ⟨fun i hi => (hnext i hi).1, fun _ w i p stack hs j hj => ?_, by simp, by simp⟩
    obtain ⟨-, rfl, -⟩ := Frame.executing.inj (List.cons.inj hs).1
    exact (hnext j hj).2

theorem WellFormed.loop (h : WellFormed s) (hmem : ∀ i, s.iter = some i → i ∈ s.tasks) (taskToWait : ℕ) :
    WellFormed (s.loop taskToWait) := by
  rw [State.loop]
  cases hi : s.iter with
  | none => exact { h with }
  | some id =>
    refine { h with executing := fun w i p hp => ?_, deleting := fun w i hp => ?_ }
    · rcases List.mem_cons.mp hp with he | hp
      · obtain ⟨-, rfl, rfl⟩ := Frame.executing.inj he
        exact ⟨rfl, Or.inl (hmem i hi)⟩
      · exact h.executing w i p hp
    · rcases List.mem_cons.mp hp with he | hp
      · cases he
      · exact h.deleting w i hp

/-- Both invariants hold after user code goes on with an iterator at the end or unchanged. -/
theorem Iterator.user (h : ∀ i, s.iter = some i → i ∈ s.tasks)
    (hbehind : ∀ w id p stack, s.stack = .executing w id p :: stack → ∀ i, s.iter = some i → id < i) :
    Iterator { s with control := .user } :=
  ⟨h, fun _ => hbehind, by simp, by simp⟩

theorem WellFormed.waitForFinished (h : WellFormed s) (taskId : ℕ) : WellFormed (s.waitForFinished taskId) := by
  rw [State.waitForFinished]
  split_ifs
  · exact (h.push (by simp) (by simp)).enter 0
  · exact (h.push (by simp) (by simp)).enter taskId
  · exact h

theorem Iterator.waitForFinished (h : Iterator s) (taskId : ℕ) : Iterator (s.waitForFinished taskId) := by
  rw [State.waitForFinished]
  split_ifs
  · exact Iterator.enter (s := s.push _) h.mem 0
  · exact Iterator.enter (s := s.push _) h.mem taskId
  · exact h

theorem WellFormed.waitForAllTasks (h : WellFormed s) : WellFormed s.waitForAllTasks := by
  rw [State.waitForAllTasks]
  split_ifs
  · exact (h.push (by simp) (by simp)).enter 0
  · exact h

theorem Iterator.waitForAllTasks (h : Iterator s) : Iterator s.waitForAllTasks := by
  rw [State.waitForAllTasks]
  split_ifs
  · exact Iterator.enter (s := s.push _) h.mem 0
  · exact h

theorem WellFormed.resume (h : WellFormed s) (result : Bool) (frame : Frame) : WellFormed (s.resume result frame) := by
  cases frame with
  | waitForPassive taskId =>
    simp only [State.resume]
    split_ifs
    · exact (h.push (by simp) (by simp)).enter 0
    · exact { h with }
  | waitForActive taskId =>
    simp only [State.resume]
    split_ifs
    · exact (h.push (by simp) (by simp)).enter taskId
    · exact { h with }
  | waitForAllTasks => exact WellFormed.waitForAllTasks (s := { s with control := .user }) { h with }
  | executing | deleting | calling => exact { h with }

theorem Iterator.resume (h : s.iter = none) (result : Bool) (frame : Frame) : Iterator (s.resume result frame) := by
  have huser : Iterator { s with control := .user } := Iterator.user (by simp [h]) (by simp [h])
  cases frame with
  | waitForPassive taskId =>
    simp only [State.resume]
    split_ifs
    · exact Iterator.enter (s := s.push _) huser.mem 0
    · exact huser
  | waitForActive taskId =>
    simp only [State.resume]
    split_ifs
    · exact Iterator.enter (s := s.push _) huser.mem taskId
    · exact huser
  | waitForAllTasks => exact huser.waitForAllTasks
  | executing | deleting | calling => exact huser

end Steps

end PIConGPU.TaskManager
