import PIConGPU.BackgroundField
import PIConGPU.BarrierProcesses
import PIConGPU.GridDistributionText
import PIConGPU.RowMajor

/-!
# The simulation loop, checkpoints and restarts

The ranks advance the simulation step by step, notify their plugins and write checkpoints. Two barriers enclose the
writing of a checkpoint, and only behind the second one the first rank appends the step to the master file. A job may be
killed at any moment and is started again with the last step of this file.
-/
namespace PIConGPU.SimulationHelper

open BarrierProcesses

section MasterFile

/-- `lexical_cast` of a text to a signed 32-bit value. -/
def lexicalCastInt (line : List Char) : Option ℤ :=
  let (negative, digits) := match line with
    | '-' :: digits => (true, digits)
    | '+' :: digits => (false, digits)
    | digits => (false, digits)
  (ParserGridDistribution.lexicalCast digits).bind fun n =>
    if negative then if n ≤ 2147483648 then some (-n) else none
    else if n ≤ 2147483647 then some n else none

def writeCheckpointStep (file : List Char) (checkpointStep : ℕ) : List Char :=
  file ++ Nat.toDigits 10 checkpointStep ++ ['\n']

/-- The last line that is not empty decides. -/
def readCheckpointMasterFile (file : List Char) : ℤ :=
  (file.splitOn '\n').foldl (fun lastCheckpointStep line =>
    if 0 < line.length then (lexicalCastInt line).getD (-1) else lastCheckpointStep) (-1)

theorem lexicalCastInt_digits {n : ℕ} (h : n ≤ 2147483647) : lexicalCastInt (Nat.toDigits 10 n) = some (n : ℤ) := by
  obtain ⟨c, digits, hdigits⟩ := List.exists_cons_of_ne_nil (@Nat.toDigits_ne_nil n 10)
  have hminus : c ≠ '-' := ParserGridDistribution.ne_of_mem (n := n) (hdigits ▸ List.mem_cons_self ..) rfl
  have hplus : c ≠ '+' := ParserGridDistribution.ne_of_mem (n := n) (hdigits ▸ List.mem_cons_self ..) rfl
  have hcast := ParserGridDistribution.lexicalCast_digits (n := n) (by omega)
  rw [hdigits] at hcast ⊢
  simp [lexicalCastInt, hminus, hplus, hcast, h]

theorem foldl_writeCheckpointStep (steps : List ℕ) (file : List Char) :
    steps.foldl writeCheckpointStep file = file ++ steps.flatMap fun n => Nat.toDigits 10 n ++ ['\n'] := by
  induction steps generalizing file with
  | nil => simp
  | cons n steps ih => simp [ih, writeCheckpointStep]

/-- The lines of the master file are the written steps. -/
theorem splitOn_flatMap (steps : List ℕ) : (steps.flatMap fun n => Nat.toDigits 10 n ++ ['\n']).splitOn '\n' =
    steps.map (Nat.toDigits 10) ++ [[]] := by
  induction steps with
  | nil => rfl
  | cons n steps ih =>
    have hline : '\n' ∉ Nat.toDigits 10 n := fun h => ParserGridDistribution.ne_of_mem h (by decide) rfl
    rw [List.flatMap_cons, List.append_assoc, List.singleton_append,
      List.splitOn_append_cons_self_of_not_mem hline, ih, List.map_cons, List.cons_append]

/-- Reading gives the step that was written last. -/
theorem readCheckpointMasterFile_write {steps : List ℕ} (hsteps : ∀ n ∈ steps, n ≤ 2147483647) :
    readCheckpointMasterFile (steps.foldl writeCheckpointStep []) = steps.getLast?.elim (-1) (fun n => (n : ℤ)) := by
  rw [foldl_writeCheckpointStep, List.nil_append, readCheckpointMasterFile, splitOn_flatMap, List.foldl_append]
  simp only [List.foldl_cons, List.foldl_nil, List.length_nil, lt_irrefl, if_false]
  induction steps using List.reverseRecOn with
  | nil => rfl
  | append_singleton steps n ih =>
    have hpos : 0 < (Nat.toDigits 10 n).length := List.length_pos_of_ne_nil Nat.toDigits_ne_nil
    rw [List.map_append, List.foldl_append]
    simp [hpos, lexicalCastInt_digits (hsteps n (by simp))]

end MasterFile

/-- A plugin that was notified, the step, and the state of the rank that it has seen. -/
structure Notification (S : Type*) where
  plugin : ℕ
  currentStep : ℕ
  state : S

/-- What a rank does to its output. A checkpoint is not usable while it is written. -/
inductive Action (S C : Type*)
  | notify (notification : Notification S)
  | openCheckpoint (currentStep : ℕ)
  | closeCheckpoint (currentStep : ℕ) (data : C)
  | writeCheckpointStep (currentStep : ℕ)

/-- What a rank leaves behind on the disk, and all notifications that its plugins have received so far. -/
structure Output (S C : Type*) where
  checkpoints : ℕ → Option C
  masterFile : List Char
  notified : List (Notification S)

def Action.execute {S C : Type*} (action : Action S C) (out : Output S C) : Output S C :=
  match action with
  | .notify notification => { out with notified := out.notified ++ [notification] }
  | .openCheckpoint n => { out with checkpoints := Function.update out.checkpoints n none }
  | .closeCheckpoint n data => { out with checkpoints := Function.update out.checkpoints n (some data) }
  | .writeCheckpointStep n => { out with masterFile := SimulationHelper.writeCheckpointStep out.masterFile n }

/-- Plugins with their periods are added to the list of notifications. -/
def setNotificationPeriod (notificationList : List (ℕ × ℕ)) (notifiedObj period : ℕ) : List (ℕ × ℕ) :=
  if 0 < period then notificationList ++ [(notifiedObj, period)] else notificationList

/-- A simulation of several ranks. What the ranks do together in a step, and what a rank stores in a checkpoint and
restores from it, is arbitrary. -/
structure Simulation (R S C : Type*) where
  root : R
  checkpointPeriod : ℕ
  plugins : List (ℕ × ℕ)
  init : R → S
  runOneStep : ℕ → (R → S) → R → S
  movingWindowCheck : ℕ → (R → S) → R → S
  checkpoint : R → ℕ → S → C
  restart : R → ℕ → C → S

namespace Simulation

variable {R S C : Type*} [DecidableEq R] (sim : Simulation R S C)

def notificationList : List (ℕ × ℕ) :=
  sim.plugins.foldl (fun list plugin => setNotificationPeriod list plugin.1 plugin.2) []

def notifyPlugins (currentStep : ℕ) (s : S) : List (Event (Action S C)) :=
  (sim.notificationList.filter fun plugin => currentStep % plugin.2 = 0).map fun plugin =>
    .act (.notify ⟨plugin.1, currentStep, s⟩)

def isCheckpointStep (currentStep : ℕ) : Bool := sim.checkpointPeriod ≠ 0 && currentStep % sim.checkpointPeriod = 0

/-- The events of a rank up to the end of writing a checkpoint. -/
def checkpointPlugins (r : R) (currentStep : ℕ) (s : S) : List (Event (Action S C)) :=
  [.barrier, .act (.openCheckpoint currentStep), .act (.closeCheckpoint currentStep (sim.checkpoint r currentStep s))]

def dumpOneStep (r : R) (currentStep : ℕ) (s : S) : List (Event (Action S C)) :=
  sim.notifyPlugins currentStep s ++
    if sim.isCheckpointStep currentStep then
      sim.checkpointPlugins r currentStep s ++ .barrier ::
        if r = sim.root then [.act (.writeCheckpointStep currentStep)] else []
    else []

/-- The rounds of the loop, starting at the given step and state. -/
def loop : ℕ → ℕ → (R → S) → R → List (Event (Action S C))
  | 0, _, _, _ => []
  | rounds + 1, currentStep, s, r =>
    let s := sim.movingWindowCheck (currentStep + 1) (sim.runOneStep currentStep s)
    sim.dumpOneStep r (currentStep + 1) (s r) ++ loop rounds (currentStep + 1) s r

/-- The events of a rank behind `init` and the check for the moving window. -/
def startSimulation (runSteps : ℕ) (restartStep : Option ℕ) (s : R → S) (r : R) : List (Event (Action S C)) :=
  match restartStep with
  | none => sim.dumpOneStep r 0 (s r) ++ sim.loop runSteps 0 s r
  | some currentStep => sim.loop (runSteps - currentStep) currentStep s r

/-- How a job starts with the output of the jobs before: from the last step of the master file if there is one. All
ranks need their checkpoint of this step. -/
inductive Start (out : R → Output S C) : Option ℕ → (R → S) → Prop
  | init (h : readCheckpointMasterFile (out sim.root).masterFile < 0) :
      Start out none (sim.movingWindowCheck 0 sim.init)
  | restart {restartStep : ℕ} {data : R → C} (h : readCheckpointMasterFile (out sim.root).masterFile = restartStep)
      (hdata : ∀ r, (out r).checkpoints restartStep = some (data r)) :
      Start out (some restartStep) (sim.movingWindowCheck restartStep fun r => sim.restart r restartStep (data r))

abbrev Run : (R → Process (Action S C) (Output S C)) → (R → Process (Action S C) (Output S C)) → Prop :=
  BarrierProcesses.Run fun _ => Action.execute

/-- The states of a simulation that is never interrupted. -/
def states : ℕ → R → S
  | 0 => sim.movingWindowCheck 0 sim.init
  | n + 1 => sim.movingWindowCheck (n + 1) (sim.runOneStep n (states n))

def Due (plugin currentStep : ℕ) : Prop := ∃ period, (plugin, period) ∈ sim.notificationList ∧ currentStep % period = 0

/-- A restart brings back the state that the checkpoint was written from. -/
def Restores : Prop :=
  ∀ n, sim.movingWindowCheck n (fun r => sim.restart r n (sim.checkpoint r n (sim.states n r))) = sim.states n

section Background

variable {D : ℕ} {V α : Type*} [AddCommGroup V]

/-- The ranks treat their background fields as a simulation without moving window does. All the rest of a state is in
its checkpoint. -/
structure HasBackground (sim : Simulation R (SimulationState D V α) C) (ranks : R → MySimulation D V α) : Prop where
  movingWindowCheck : ∀ n s r, sim.movingWindowCheck n s r = (ranks r).movingWindowCheck n (s r)
  restart : ∀ r n s, sim.restart r n (sim.checkpoint r n s) = (ranks r).pushBGField (· - ·) (n + 1) s

omit [DecidableEq R] in
/-- A restart restores the state if and only if no background field that acts on the pusher depends on the time. -/
theorem HasBackground.restores_iff {sim : Simulation R (SimulationState D V α) C} {ranks : R → MySimulation D V α}
    (h : sim.HasBackground ranks) : sim.Restores ↔ ∀ n r cell,
      (ranks r).Steady cell (n + 1) n (ranks r).fieldBackgroundE ∧
        (ranks r).Steady cell (n + 1) n (ranks r).fieldBackgroundB := by
  refine forall_congr' fun n => funext_iff.trans (forall_congr' fun r => ?_)
  rw [h.movingWindowCheck, h.restart]
  exact MySimulation.movingWindowCheck_pushBGField_iff (sim.states n r) n

end Background

end Simulation

section Events

variable {S C : Type*}

def lines (events : List (Event (Action S C))) : List ℕ :=
  events.filterMap fun e => match e with
    | .act (.writeCheckpointStep n) => some n
    | _ => none

def notifications (events : List (Event (Action S C))) : List (Notification S) :=
  events.filterMap fun e => match e with
    | .act (.notify notification) => some notification
    | _ => none

def written (events : List (Event (Action S C))) : List ℕ :=
  events.filterMap fun e => match e with
    | .act (.openCheckpoint n) => some n
    | .act (.closeCheckpoint n _) => some n
    | _ => none

theorem lines_append (l l' : List (Event (Action S C))) : lines (l ++ l') = lines l ++ lines l' :=
  List.filterMap_append

theorem notifications_append (l l' : List (Event (Action S C))) :
    notifications (l ++ l') = notifications l ++ notifications l' := List.filterMap_append

theorem written_append (l l' : List (Event (Action S C))) : written (l ++ l') = written l ++ written l' :=
  List.filterMap_append

theorem after_masterFile (events : List (Event (Action S C))) (out : Output S C) :
    (after Action.execute events out).masterFile = (lines events).foldl writeCheckpointStep out.masterFile := by
  induction events generalizing out with
  | nil => rfl
  | cons e events ih =>
    rcases e with _ | (_ | _ | _ | _) <;> exact ih _

theorem after_notified (events : List (Event (Action S C))) (out : Output S C) :
    (after Action.execute events out).notified = out.notified ++ notifications events := by
  induction events generalizing out with
  | nil => simp [notifications]
  | cons e events ih =>
    rcases e with _ | (_ | _ | _ | _) <;> simp [notifications, ih, Action.execute]

theorem after_checkpoints {events : List (Event (Action S C))} {n : ℕ} (h : n ∉ written events) (out : Output S C) :
    (after Action.execute events out).checkpoints n = out.checkpoints n := by
  induction events generalizing out with
  | nil => rfl
  | cons e events ih =>
    rcases e with _ | (_ | m | ⟨m, _⟩ | _)
    · exact ih (by simpa [written] using h) out
    · exact ih (by simpa [written] using h) _
    · have hm : n ≠ m ∧ n ∉ written events := by simpa [written] using h
      rw [after_act, ih hm.2]
      simp [Action.execute, hm.1]
    · have hm : n ≠ m ∧ n ∉ written events := by simpa [written] using h
      rw [after_act, ih hm.2]
      simp [Action.execute, hm.1]
    · exact ih (by simpa [written] using h) _

end Events

namespace Simulation

variable {R S C : Type*} (sim : Simulation R S C)

section Dumps

theorem barriers_notifyPlugins (n : ℕ) (s : S) : barriers (sim.notifyPlugins n s) = 0 := by
  simp [notifyPlugins, barriers, List.countP_map, Function.comp_def]

theorem lines_notifyPlugins (n : ℕ) (s : S) : lines (sim.notifyPlugins n s) = [] := by
  simp [lines, notifyPlugins, List.filterMap_map]

theorem written_notifyPlugins (n : ℕ) (s : S) : written (sim.notifyPlugins n s) = [] := by
  simp [written, notifyPlugins, List.filterMap_map]

variable [DecidableEq R]

theorem barriers_dumpOneStep (r : R) (n : ℕ) (s : S) :
    barriers (sim.dumpOneStep r n s) = if sim.isCheckpointStep n then 2 else 0 := by
  rw [dumpOneStep, barriers_append, barriers_notifyPlugins]
  split_ifs <;> simp [checkpointPlugins]

theorem lines_dumpOneStep (n : ℕ) (s : S) :
    lines (sim.dumpOneStep sim.root n s) = if sim.isCheckpointStep n then [n] else [] := by
  rw [dumpOneStep, lines_append, lines_notifyPlugins, if_pos rfl]
  split_ifs <;> rfl

theorem eq_of_mem_written {r : R} {n m : ℕ} {s : S} (h : m ∈ written (sim.dumpOneStep r n s)) : m = n := by
  rw [dumpOneStep, written_append, written_notifyPlugins] at h
  split_ifs at h
  · simpa [written, checkpointPlugins] using h
  · simpa [written, checkpointPlugins] using h
  · simp [written] at h

theorem mem_notifications_dumpOneStep {r : R} {n : ℕ} {s : S} {x : Notification S} :
    x ∈ notifications (sim.dumpOneStep r n s) ↔ sim.Due x.plugin n ∧ x.currentStep = n ∧ x.state = s := by
  have hnotify : notifications (sim.notifyPlugins n s) =
      (sim.notificationList.filter fun plugin => n % plugin.2 = 0).map fun plugin => ⟨plugin.1, n, s⟩ := by
    simp [notifications, notifyPlugins, List.filterMap_map]
  have hrest : notifications (sim.dumpOneStep r n s) = notifications (sim.notifyPlugins n s) := by
    rw [dumpOneStep, notifications_append]
    split_ifs <;> simp [notifications, checkpointPlugins]
  rw [hrest, hnotify, List.mem_map]
  constructor
  · rintro ⟨plugin, hplugin, rfl⟩
    rw [List.mem_filter, decide_eq_true_eq] at hplugin
    exact ⟨⟨plugin.2, hplugin.1, hplugin.2⟩, rfl, rfl⟩
  · rintro ⟨⟨period, hmem, hperiod⟩, hn, hs⟩
    obtain ⟨plugin, m, state⟩ := x
    obtain rfl : m = n := hn
    obtain rfl : state = s := hs
    exact ⟨(plugin, period), by simp [hmem, hperiod], rfl⟩

/-- The events of a rank in a list of steps of the uninterrupted simulation. -/
def dumps (r : R) (l : List ℕ) : List (Event (Action S C)) := l.flatMap fun n => sim.dumpOneStep r n (sim.states n r)

theorem dumps_append (r : R) (l l' : List ℕ) : sim.dumps r (l ++ l') = sim.dumps r l ++ sim.dumps r l' :=
  List.flatMap_append

theorem loop_states (rounds n : ℕ) (r : R) :
    sim.loop rounds n (sim.states n) r = sim.dumps r (List.range' (n + 1) rounds) := by
  induction rounds generalizing n with
  | zero => rfl
  | succ rounds ih =>
    rw [List.range'_succ, loop]
    exact congrArg (_ ++ ·) (ih (n + 1))

theorem barriers_dumps (r r' : R) (l : List ℕ) : barriers (sim.dumps r l) = barriers (sim.dumps r' l) := by
  induction l with
  | nil => rfl
  | cons n l ih =>
    simp only [dumps, List.flatMap_cons, barriers_append, barriers_dumpOneStep] at ih ⊢
    rw [ih]

theorem lines_dumps (l : List ℕ) : lines (sim.dumps sim.root l) = l.filter sim.isCheckpointStep := by
  induction l with
  | nil => rfl
  | cons n l ih =>
    rw [dumps, List.flatMap_cons, lines_append, lines_dumpOneStep, List.filter_cons]
    have hl : lines (l.flatMap fun n => sim.dumpOneStep sim.root n (sim.states n sim.root)) =
      l.filter sim.isCheckpointStep := ih
    split_ifs <;> simp [hl]

theorem mem_of_mem_written {r : R} {l : List ℕ} {m : ℕ} (h : m ∈ written (sim.dumps r l)) : m ∈ l := by
  induction l with
  | nil => exact absurd h (List.not_mem_nil)
  | cons n l ih =>
    rw [dumps, List.flatMap_cons, written_append, List.mem_append] at h
    rcases h with h | h
    · exact sim.eq_of_mem_written h ▸ List.mem_cons_self ..
    · exact List.mem_cons_of_mem _ (ih h)

theorem mem_notifications_dumps {r : R} {l : List ℕ} {x : Notification S} : x ∈ notifications (sim.dumps r l) ↔
    x.currentStep ∈ l ∧ sim.Due x.plugin x.currentStep ∧ x.state = sim.states x.currentStep r := by
  induction l with
  | nil => simp [dumps, notifications]
  | cons n l ih =>
    rw [dumps, List.flatMap_cons, notifications_append, List.mem_append, mem_notifications_dumpOneStep,
      List.mem_cons, or_and_right]
    refine or_congr ⟨?_, ?_⟩ ih
    · rintro ⟨hdue, rfl, hs⟩
      exact ⟨rfl, hdue, hs⟩
    · rintro ⟨rfl, hdue, hs⟩
      exact ⟨hdue, rfl, hs⟩

end Dumps

section Consistency

/-- What the jobs before leave behind when they have announced the checkpoints of some steps. -/
structure Consistent (out : R → Output S C) (steps : List ℕ) : Prop where
  masterFile : (out sim.root).masterFile = steps.foldl writeCheckpointStep []
  initial : ∃ last, steps <+: (List.range last).filter sim.isCheckpointStep
  le : ∀ n ∈ steps, n ≤ 2147483647
  complete : ∀ n ∈ steps, ∀ r, (out r).checkpoints n = some (sim.checkpoint r n (sim.states n r))
  notified : ∀ n ∈ steps, ∀ m ≤ n, ∀ plugin, sim.Due plugin m → ∀ r, ⟨plugin, m, sim.states m r⟩ ∈ (out r).notified
  sound : ∀ r, ∀ x ∈ (out r).notified, sim.Due x.plugin x.currentStep ∧ x.state = sim.states x.currentStep r

/-- The steps before a job, and the first step that it dumps. -/
structure Continues (steps : List ℕ) (first : ℕ) : Prop where
  initial : steps = (List.range first).filter sim.isCheckpointStep
  covered : ∀ m < first, ∃ n ∈ steps, m ≤ n

variable {sim}

theorem Consistent.read {out : R → Output S C} {steps : List ℕ} (h : sim.Consistent out steps) :
    readCheckpointMasterFile (out sim.root).masterFile = steps.getLast?.elim (-1) (fun n => (n : ℤ)) := by
  rw [h.masterFile, readCheckpointMasterFile_write h.le]

theorem continues_of_getLast {steps : List ℕ} {n last : ℕ}
    (hsteps : steps <+: (List.range last).filter sim.isCheckpointStep) (hlast : steps.getLast? = some n) :
    sim.Continues steps (n + 1) := by
  obtain ⟨steps, rfl⟩ := List.getLast?_eq_some_iff.mp hlast
  obtain ⟨rest, hrest⟩ := hsteps
  have hmem : n ∈ (List.range last).filter sim.isCheckpointStep := by
    rw [← hrest]
    simp
  obtain ⟨hlt, hn⟩ := List.mem_filter.mp hmem
  obtain ⟨k, rfl⟩ : ∃ k, last = n + (k + 1) := ⟨last - n - 1, by have := List.mem_range.mp hlt; omega⟩
  have hsplit : (List.range (n + (k + 1))).filter sim.isCheckpointStep = (List.range n).filter sim.isCheckpointStep ++
      n :: (List.range' (n + 1) k).filter sim.isCheckpointStep := by
    rw [List.range_eq_range', ← List.range'_append_1, List.filter_append, Nat.zero_add, List.range'_succ,
      List.filter_cons_of_pos hn, ← List.range_eq_range']
  -- `n` occurs only once, so that both lists are split at the same place
  have hfront : n ∉ (List.range n).filter sim.isCheckpointStep := by simp
  have hback : n ∉ (List.range' (n + 1) k).filter sim.isCheckpointStep := by simp
  have hparts := hrest.trans hsplit
  rw [List.append_assoc, List.singleton_append] at hparts
  have hsteps := ((List.append_cons_inj_of_notMem hfront hback).mp hparts.symm).1
  refine ⟨?_, fun m hm => ⟨n, by simp, by omega⟩⟩
  rw [← hsteps, List.range_succ, List.filter_append, List.filter_cons_of_pos hn, List.filter_nil]

end Consistency

section Jobs

variable [DecidableEq R]

/-- The events of a rank in some steps, up to the end of writing the checkpoint of the next step `n`. -/
def before (r : R) (l : List ℕ) (n : ℕ) : List (Event (Action S C)) :=
  sim.dumps r l ++ (sim.notifyPlugins n (sim.states n r) ++ sim.checkpointPlugins r n (sim.states n r))

theorem barriers_before (r r' : R) (l : List ℕ) (n : ℕ) :
    barriers (sim.before r l n) = barriers (sim.before r' l n) := by
  simp only [before, barriers_append, barriers_notifyPlugins, sim.barriers_dumps r r' l]
  rfl

theorem lines_before (l : List ℕ) (n : ℕ) : lines (sim.before sim.root l n) = l.filter sim.isCheckpointStep := by
  rw [before, lines_append, lines_append, lines_dumps, lines_notifyPlugins]
  exact List.append_nil _

variable {sim}

/-- Once the first rank has written the line of a step, every rank has written its checkpoint of this step. -/
theorem exists_before {l l₁ l₂ : List ℕ} {n : ℕ} {done : R → List (Event (Action S C))} (hl : l = l₁ ++ n :: l₂)
    (hnodup : l.Nodup) (hn : sim.isCheckpointStep n) (hdone : ∀ r, done r <+: sim.dumps r l)
    (hbarriers : ∀ r r', barriers (done r) = barriers (done r')) (hline : n ∈ lines (done sim.root)) (r : R) :
    ∃ rest, done r = sim.before r l₁ n ++ .barrier :: rest ∧ n ∉ written rest := by
  subst hl
  have hnodup' : n ∉ l₁ ∧ n ∉ l₂ := by
    have h := List.nodup_middle.mp hnodup
    simpa using (List.nodup_cons.mp h).1
  let line : R → List (Event (Action S C)) := fun r => if r = sim.root then [.act (.writeCheckpointStep n)] else []
  have hsplit : ∀ r, sim.dumps r (l₁ ++ n :: l₂) = sim.before r l₁ n ++ .barrier :: (line r ++ sim.dumps r l₂) := by
    intro r
    simp only [dumps, List.flatMap_append, List.flatMap_cons, dumpOneStep, if_pos hn, before, line, List.append_assoc,
      List.cons_append]
  have hroot : sim.before sim.root l₁ n ++ [.barrier] <+: done sim.root := by
    have hprefix : sim.before sim.root l₁ n ++ [.barrier] <+: sim.dumps sim.root (l₁ ++ n :: l₂) :=
      ⟨line sim.root ++ sim.dumps sim.root l₂, by simp [hsplit]⟩
    refine (List.prefix_or_prefix_of_prefix hprefix (hdone sim.root)).resolve_right fun h => ?_
    have hmem : n ∈ lines (sim.before sim.root l₁ n ++ [.barrier]) := (h.filterMap _).subset hline
    have hlines : lines (sim.before sim.root l₁ n ++ [.barrier]) = l₁.filter sim.isCheckpointStep := by
      rw [lines_append, lines_before]
      exact List.append_nil _
    rw [hlines] at hmem
    exact hnodup'.1 (List.mem_of_mem_filter hmem)
  have hcount : barriers (sim.before r l₁ n) < barriers (done r) := by
    have h := barriers_mono hroot
    rw [barriers_append, barriers_barrier, barriers_nil, sim.barriers_before _ r, hbarriers _ r] at h
    omega
  have hr := prefix_of_barriers_lt ((hsplit r) ▸ hdone r) hcount
  obtain ⟨rest, hrest⟩ := hr
  refine ⟨rest, by simp [← hrest], fun hwritten => ?_⟩
  have hrest' : rest <+: line r ++ sim.dumps r l₂ := by
    have h := hdone r
    rw [hsplit, ← hrest] at h
    simpa using h
  have hmem : n ∈ written (line r ++ sim.dumps r l₂) := (hrest'.filterMap _).subset hwritten
  have hline : written (line r) = [] := by
    simp only [line]
    split_ifs <;> rfl
  rw [written_append, hline, List.nil_append] at hmem
  exact hnodup'.2 (sim.mem_of_mem_written hmem)

theorem checkpoints_before (r : R) (l : List ℕ) (n : ℕ) (rest : List (Event (Action S C))) (hrest : n ∉ written rest)
    (out : Output S C) : (after Action.execute (sim.before r l n ++ .barrier :: rest) out).checkpoints n =
      some (sim.checkpoint r n (sim.states n r)) := by
  have hopen : sim.before r l n = (sim.dumps r l ++ sim.notifyPlugins n (sim.states n r)) ++
      sim.checkpointPlugins r n (sim.states n r) := by rw [before, List.append_assoc]
  rw [after_append, after_barrier, after_checkpoints hrest, hopen, after_append]
  simp [checkpointPlugins, Action.execute]

/-- A job that is started from a consistent output continues the uninterrupted simulation. -/
theorem Consistent.start (hrestores : sim.Restores) {out : R → Output S C} {steps : List ℕ}
    (h : sim.Consistent out steps) {restartStep : Option ℕ} {s : R → S} (hstart : sim.Start out restartStep s) :
    s = sim.states (restartStep.getD 0) ∧ ∃ first, sim.Continues steps first ∧ ∀ runSteps r,
      sim.startSimulation runSteps restartStep s r = sim.dumps r (List.range' first (runSteps + 1 - first)) := by
  have hread := h.read
  cases hstart with
  | init hneg =>
    have hnil : steps = [] := by
      rw [hread] at hneg
      cases hlast : steps.getLast? with
      | none => exact List.getLast?_eq_none_iff.mp hlast
      | some n =>
        rw [hlast, Option.elim_some] at hneg
        omega
    refine ⟨rfl, 0, ⟨by rw [hnil]; rfl, by omega⟩, fun runSteps r => ?_⟩
    rw [Nat.sub_zero, List.range'_succ, dumps, List.flatMap_cons]
    exact congrArg (_ ++ ·) (sim.loop_states runSteps 0 r)
  | @restart n data hn hdata =>
    have hlast : steps.getLast? = some n := by
      rw [hread] at hn
      cases hlast : steps.getLast? with
      | none =>
        rw [hlast, Option.elim_none] at hn
        omega
      | some m =>
        rw [hlast, Option.elim_some] at hn
        exact congrArg some (by omega)
    have hdata' : data = fun r => sim.checkpoint r n (sim.states n r) := by
      funext r
      have := h.complete n (List.mem_of_getLast? hlast) r
      simpa [hdata r] using this
    have hs : sim.movingWindowCheck n (fun r => sim.restart r n (data r)) = sim.states n := by
      rw [hdata']
      exact hrestores n
    obtain ⟨last, hinitial⟩ := h.initial
    refine ⟨hs, n + 1, continues_of_getLast hinitial hlast, fun runSteps r => ?_⟩
    rw [hs, startSimulation, loop_states, Nat.add_sub_add_right]

theorem mem_notifications_before {r : R} {l : List ℕ} {n : ℕ} {x : Notification S} (hx : x.currentStep ∈ l ++ [n])
    (hdue : sim.Due x.plugin x.currentStep) (hstate : x.state = sim.states x.currentStep r) :
    x ∈ notifications (sim.before r l n) := by
  have hmem : x ∈ notifications (sim.dumps r (l ++ [n])) := sim.mem_notifications_dumps.mpr ⟨hx, hdue, hstate⟩
  have hnotify : notifications (sim.dumps r [n]) = notifications (sim.notifyPlugins n (sim.states n r)) := by
    rw [dumps, List.flatMap_singleton, dumpOneStep, notifications_append]
    split_ifs <;> simp [notifications, checkpointPlugins]
  rw [dumps_append, notifications_append, hnotify] at hmem
  rw [before, notifications_append, notifications_append, ← List.append_assoc]
  exact List.mem_append_left _ hmem

/-- At every moment of a job its output is consistent. -/
theorem Consistent.run {out : R → Output S C} {steps : List ℕ} {first k : ℕ} (h : sim.Consistent out steps)
    (hcontinues : sim.Continues steps first) (hk : first + k ≤ 2147483648) {done : R → List (Event (Action S C))}
    (hdone : ∀ r, done r <+: sim.dumps r (List.range' first k))
    (hbarriers : ∀ r r', barriers (done r) = barriers (done r')) :
    sim.Consistent (fun r => after Action.execute (done r) (out r)) (steps ++ lines (done sim.root)) := by
  have hlines : lines (done sim.root) <+: (List.range' first k).filter sim.isCheckpointStep :=
    sim.lines_dumps _ ▸ (hdone sim.root).filterMap _
  have hnew : ∀ n ∈ lines (done sim.root), n ∈ List.range' first k ∧ sim.isCheckpointStep n := fun n hn =>
    List.mem_filter.mp (hlines.subset hn)
  have hpast : ∀ n ∈ lines (done sim.root), ∀ r, ∃ l₁ rest, done r = sim.before r l₁ n ++ .barrier :: rest ∧
      n ∉ written rest ∧ ∀ m, first ≤ m → m ≤ n → m ∈ l₁ ++ [n] := by
    intro n hn r
    obtain ⟨l₁, l₂, hl⟩ := List.append_of_mem (hnew n hn).1
    obtain ⟨rest, hrest, hwritten⟩ := exists_before hl List.nodup_range' (hnew n hn).2 hdone hbarriers hn r
    refine ⟨l₁, rest, hrest, hwritten, fun m hfirst hm => ?_⟩
    have hsorted : (l₁ ++ n :: l₂).Pairwise (· < ·) := hl ▸ List.pairwise_lt_range'
    have hmem : m ∈ l₁ ++ n :: l₂ := by
      have hn' := List.mem_range'_1.mp (hnew n hn).1
      exact hl ▸ List.mem_range'_1.mpr ⟨hfirst, by omega⟩
    rcases List.mem_append.mp hmem with hm₁ | hm₂
    · exact List.mem_append_left _ hm₁
    · rcases List.mem_cons.mp hm₂ with rfl | hm₂
      · simp
      · have hlt := List.rel_of_pairwise_cons (List.pairwise_append.mp hsorted).2.1 hm₂
        omega
  refine ⟨?_, ⟨first + k, ?_⟩, fun n hn => ?_, fun n hn r => ?_, fun n hn m hm plugin hdue r => ?_, fun r x hx => ?_⟩
  · rw [after_masterFile, h.masterFile, ← List.foldl_append]
  · rw [List.range_eq_range', ← List.range'_append_1, List.filter_append, Nat.zero_add, ← List.range_eq_range',
      ← hcontinues.initial]
    exact (List.prefix_append_right_inj _).mpr hlines
  · rcases List.mem_append.mp hn with hn | hn
    · exact h.le n hn
    · have := List.mem_range'_1.mp (hnew n hn).1
      omega
  · rcases List.mem_append.mp hn with hn | hn
    · refine (after_checkpoints (fun hwritten => ?_) _).trans (h.complete n hn r)
      have hmem := sim.mem_of_mem_written (((hdone r).filterMap _).subset hwritten)
      rw [hcontinues.initial] at hn
      have := List.mem_range.mp (List.mem_of_mem_filter hn)
      have := (List.mem_range'_1.mp hmem).1
      omega
    · obtain ⟨l₁, rest, hrest, hwritten, -⟩ := hpast n hn r
      rw [hrest]
      exact checkpoints_before r l₁ n rest hwritten _
  · rw [after_notified]
    have hold : ∀ n ∈ steps, m ≤ n → ⟨plugin, m, sim.states m r⟩ ∈ (out r).notified ++ notifications (done r) :=
      fun n hn hm => List.mem_append_left _ (h.notified n hn m hm plugin hdue r)
    rcases List.mem_append.mp hn with hn | hn
    · exact hold n hn hm
    · rcases Nat.lt_or_ge m first with hlt | hge
      · obtain ⟨n', hn', hm'⟩ := hcontinues.covered m hlt
        exact hold n' hn' hm'
      · obtain ⟨l₁, rest, hrest, -, hl₁⟩ := hpast n hn r
        refine List.mem_append_right _ ?_
        rw [hrest, notifications_append]
        exact List.mem_append_left _ (mem_notifications_before (hl₁ m hge hm) hdue rfl)
  · rw [after_notified, List.mem_append] at hx
    rcases hx with hx | hx
    · exact h.sound r x hx
    · exact (sim.mem_notifications_dumps.mp (((hdone r).filterMap _).subset hx)).2

end Jobs

end Simulation

end PIConGPU.SimulationHelper
