import Mathlib

/-!
# The selection of the ranks that take part in a reduction or a gather

Every rank sends its number, or -1 if it does not take part, and collects the numbers it receives behind the
`numRanks` entries it already has. The counter is set back only on ranks that hold a communicator.
-/
namespace PIConGPU.ParticipatingRanks

/-- The functions of MPI that make a communicator of a group and give a rank in it; a missing communicator is
`MPI_COMM_NULL`. -/
structure Mpi (n : ℕ) (Comm : Type) where
  commCreate : Fin n → List ℤ → Option Comm
  commRank : Fin n → Option Comm → ℤ

variable {n : ℕ} {Comm : Type}

structure Participant (Comm : Type) where
  comm : Option Comm
  mpiRank : ℤ
  numRanks : ℕ
  isMPICommInitialized : Bool

def Participant.initial : Participant Comm := ⟨none, -1, 0, false⟩

def sentRank (rank : Fin n) (isActive : Bool) : ℤ :=
  if !isActive then -1 else rank

/-- `MPI_Allgather` of the numbers of all ranks. -/
def allgather (active : Fin n → Bool) : List ℤ :=
  List.ofFn fun rank => sentRank rank (active rank)

/-- The loop over the received numbers, which fails at a write behind the end of `groupRanks`. -/
def collectRanks : List ℤ → List ℤ → ℕ → Option (List ℤ × ℕ)
  | [], groupRanks, numRanks => some (groupRanks, numRanks)
  | rank :: ranks, groupRanks, numRanks =>
    if rank ≠ -1 then
      if numRanks < groupRanks.length then collectRanks ranks (groupRanks.set numRanks rank) (numRanks + 1) else none
    else collectRanks ranks groupRanks numRanks

variable (mpi : Mpi n Comm)

/-- The call after the old communicator is freed. -/
def select (active : Fin n → Bool) (rank : Fin n) (s : Participant Comm) :
    Option (Participant Comm × List ℤ) := do
  let mpiRank := sentRank rank (active rank)
  let (groupRanks, numRanks) ← collectRanks (allgather active) (List.replicate n 0) s.numRanks
  let comm := mpi.commCreate rank (groupRanks.take numRanks)
  if mpiRank ≠ -1 then
    some (⟨comm, mpi.commRank rank comm, numRanks, true⟩, groupRanks)
  else
    some (⟨comm, mpiRank, numRanks, s.isMPICommInitialized⟩, groupRanks)

def MPIReduce.participate (active : Fin n → Bool) (rank : Fin n) (s : Participant Comm) :
    Option (Participant Comm × List ℤ) :=
  select mpi active rank (if s.isMPICommInitialized then ⟨none, -1, 0, false⟩ else s)

structure GatherSlice (Comm : Type) extends Participant Comm where
  filteredData : Option (List UInt8)
  fullData : Option (List UInt8)

namespace GatherSlice

def initial : GatherSlice Comm := ⟨Participant.initial, none, none⟩

def reset (s : GatherSlice Comm) : GatherSlice Comm :=
  ⟨⟨if s.isMPICommInitialized then none else s.comm, -1, 0, false⟩, none, none⟩

/-- The new state with the collected ranks, and whether this rank has the gathered data. -/
def init (active : Fin n → Bool) (rank : Fin n) (s : GatherSlice Comm) :
    Option ((GatherSlice Comm × List ℤ) × Bool) := do
  let s := if s.isMPICommInitialized then s.reset else s
  let (p, groupRanks) ← select mpi active rank s.toParticipant
  some (({ s with toParticipant := p }, groupRanks), p.mpiRank == 0)

def initState (active : Fin n → Bool) (rank : Fin n) (s : GatherSlice Comm) : Option (GatherSlice Comm × List ℤ) :=
  (init mpi active rank s).map Prod.fst

end GatherSlice

def afterCalls {α : Type} (call : (Fin n → Bool) → Fin n → α → Option (α × List ℤ)) (rank : Fin n) (s : α)
    (calls : List (Fin n → Bool)) : Option α :=
  calls.foldlM (fun s active => (call active rank s).map Prod.fst) s

def activeRanks (active : Fin n → Bool) : List ℤ :=
  ((List.finRange n).filter active).map fun rank => (rank.val : ℤ)

/-- Every call of the sequence returns on every rank, with exactly the active ranks of this call. -/
def EveryCallSelects {α : Type} (call : (Fin n → Bool) → Fin n → α → Option (α × List ℤ))
    (participant : α → Participant Comm) (s : α) (calls : List (Fin n → Bool)) : Prop :=
  ∀ done active, done ++ [active] <+: calls → ∀ rank, ∃ t t' groupRanks,
    afterCalls call rank s done = some t ∧ call active rank t = some (t', groupRanks) ∧
    (participant t').numRanks = (activeRanks active).length ∧
    groupRanks.take (participant t').numRanks = activeRanks active

/-- All ranks take part, or none. -/
def AllOrNone (active : Fin n → Bool) : Prop :=
  (∀ rank, active rank = true) ∨ ∀ rank, active rank = false

section Collect

theorem collectRanks_eq (ranks groupRanks : List ℤ) (k : ℕ)
    (h : k + (ranks.filter (· ≠ -1)).length ≤ groupRanks.length) :
    ∃ groupRanks', collectRanks ranks groupRanks k = some (groupRanks', k + (ranks.filter (· ≠ -1)).length) ∧
      groupRanks'.take (k + (ranks.filter (· ≠ -1)).length) = groupRanks.take k ++ ranks.filter (· ≠ -1) := by
  induction ranks generalizing groupRanks k with
  | nil => exact ⟨groupRanks, rfl, by simp⟩
  | cons rank ranks ih =>
    by_cases hrank : rank ≠ -1
    · rw [List.filter_cons_of_pos (by simpa using hrank), List.length_cons] at h ⊢
      obtain ⟨groupRanks', hrun, htake⟩ := ih (groupRanks.set k rank) (k + 1) (by rw [List.length_set]; omega)
      refine ⟨groupRanks', ?_, ?_⟩
      · rw [collectRanks, if_pos hrank, if_pos (by omega), hrun]
        congr 2
        omega
      · rw [show k + ((ranks.filter (· ≠ -1)).length + 1) = k + 1 + (ranks.filter (· ≠ -1)).length by omega, htake,
          List.take_add_one, List.take_set_of_le le_rfl, List.getElem?_set_self (by omega)]
        simp
    · rw [List.filter_cons_of_neg (by simpa using hrank)] at h ⊢
      rw [collectRanks, if_neg hrank]
      exact ih groupRanks k h

theorem collectRanks_numRanks {ranks groupRanks groupRanks' : List ℤ} {k k' : ℕ}
    (h : collectRanks ranks groupRanks k = some (groupRanks', k')) : k' = k + (ranks.filter (· ≠ -1)).length := by
  induction ranks generalizing groupRanks k with
  | nil =>
    rw [collectRanks, Option.some_inj, Prod.mk.injEq] at h
    exact h.2.symm
  | cons rank ranks ih =>
    rw [collectRanks] at h
    split_ifs at h with hrank hk
    · rw [ih h, List.filter_cons_of_pos (by simpa using hrank), List.length_cons]
      omega
    · rw [ih h, List.filter_cons_of_neg (by simpa using hrank)]

theorem sentRank_ne_iff (rank : Fin n) (isActive : Bool) : sentRank rank isActive ≠ -1 ↔ isActive = true := by
  cases isActive
  · simp [sentRank]
  · simp only [sentRank, Bool.not_true, Bool.false_eq_true, if_false, iff_true]
    omega

theorem filter_allgather (active : Fin n → Bool) : (allgather active).filter (· ≠ -1) = activeRanks active := by
  have hp : ((fun x : ℤ => decide (x ≠ -1)) ∘ fun rank => sentRank rank (active rank)) = active := by
    funext rank
    rw [Function.comp_apply, Bool.eq_iff_iff, decide_eq_true_iff, sentRank_ne_iff]
  rw [allgather, List.ofFn_eq_map, List.filter_map, hp, activeRanks]
  refine List.map_congr_left fun rank hrank => ?_
  rw [sentRank, (List.mem_filter.mp hrank).2]
  rfl

theorem length_activeRanks_le (active : Fin n → Bool) : (activeRanks active).length ≤ n := by
  rw [activeRanks, List.length_map]
  exact (List.length_filter_le _ _).trans_eq (List.length_finRange ..)

theorem length_activeRanks_eq_zero {active : Fin n → Bool} :
    (activeRanks active).length = 0 ↔ ∀ rank, active rank = false := by
  rw [List.length_eq_zero_iff, activeRanks, List.map_eq_nil_iff, List.filter_eq_nil_iff]
  simp

end Collect

section Call

variable {mpi} {active : Fin n → Bool} {rank : Fin n} {s s' : Participant Comm} {groupRanks : List ℤ}

/-- The counter starts at zero in the next call. -/
def Fresh (s : Participant Comm) : Prop :=
  s.isMPICommInitialized = false → s.numRanks = 0

theorem select_numRanks (h : select mpi active rank s = some (s', groupRanks)) :
    s'.numRanks = s.numRanks + (activeRanks active).length := by
  obtain ⟨⟨g, k⟩, hcollect, h⟩ := Option.bind_eq_some_iff.mp h
  have hk := collectRanks_numRanks hcollect
  rw [filter_allgather] at hk
  dsimp only at h
  split_ifs at h <;>
  · rw [Option.some_inj, Prod.mk.injEq] at h
    rw [← h.1, hk]

theorem select_of_numRanks_eq_zero (hzero : s.numRanks = 0) (hflag : s.isMPICommInitialized = false) :
    ∃ s' groupRanks, select mpi active rank s = some (s', groupRanks) ∧
      s'.isMPICommInitialized = active rank ∧
      s'.numRanks = (activeRanks active).length ∧ groupRanks.take s'.numRanks = activeRanks active := by
  have hlen := length_activeRanks_le active
  obtain ⟨groupRanks, hcollect, htake⟩ := collectRanks_eq (allgather active) (List.replicate n 0) 0
    (by rw [filter_allgather, List.length_replicate]; omega)
  rw [filter_allgather] at hcollect htake
  rw [zero_add] at hcollect htake
  simp only [select, hzero, hcollect, Option.bind_eq_bind, Option.bind_some, sentRank_ne_iff]
  split_ifs with hactive
  · exact ⟨_, _, rfl, hactive.symm, rfl, htake⟩
  · exact ⟨_, _, rfl, hflag.trans (by simpa using hactive), rfl, htake⟩

variable (mpi) in
theorem participate_of_fresh (active : Fin n → Bool) (rank : Fin n) (h : Fresh s) :
    ∃ s' groupRanks, MPIReduce.participate mpi active rank s = some (s', groupRanks) ∧
      s'.isMPICommInitialized = active rank ∧
      s'.numRanks = (activeRanks active).length ∧ groupRanks.take s'.numRanks = activeRanks active := by
  rw [MPIReduce.participate]
  split_ifs with hflag
  · exact select_of_numRanks_eq_zero rfl rfl
  · exact select_of_numRanks_eq_zero (h (by simpa using hflag)) (by simpa using hflag)

theorem participate_of_not_fresh (h : ¬ Fresh s)
    (hcall : MPIReduce.participate mpi active rank s = some (s', groupRanks)) :
    s'.numRanks ≠ (activeRanks active).length := by
  rw [Fresh, Classical.not_imp] at h
  rw [MPIReduce.participate, if_neg (by rw [h.1]; exact Bool.false_ne_true)] at hcall
  have := select_numRanks hcall
  omega

end Call

section Run

variable {mpi} {calls : List (Fin n → Bool)}

theorem afterCalls_concat {α : Type} (call : (Fin n → Bool) → Fin n → α → Option (α × List ℤ)) (rank : Fin n) (s : α)
    (done : List (Fin n → Bool)) (active : Fin n → Bool) :
    afterCalls call rank s (done ++ [active]) =
      (afterCalls call rank s done).bind fun t => (call active rank t).map Prod.fst := by
  rw [afterCalls, List.foldlM_append, afterCalls]
  simp

variable (mpi) in
/-- Before the next call the counters are fresh, if all or none took part in each call so far. -/
theorem afterCalls_fresh {s : Participant Comm} (hs : Fresh s) (rank : Fin n) (h : ∀ active ∈ calls, AllOrNone active) :
    ∃ t, afterCalls (MPIReduce.participate mpi) rank s calls = some t ∧ Fresh t := by
  induction calls using List.reverseRecOn with
  | nil => exact ⟨s, rfl, hs⟩
  | append_singleton calls active ih =>
    obtain ⟨t, hrun, ht⟩ := ih fun a ha => h a (List.mem_append_left _ ha)
    obtain ⟨t', groupRanks, hcall, hflag, hcount, -⟩ := participate_of_fresh mpi active rank ht
    refine ⟨t', by rw [afterCalls_concat, hrun, Option.bind_some, hcall]; rfl, fun hfalse => ?_⟩
    rw [hcount, length_activeRanks_eq_zero]
    rcases h active (by simp) with hall | hnone
    · rw [hflag, hall rank] at hfalse
      exact absurd hfalse (by decide)
    · exact hnone

/-- A mixed call leaves a stale counter on the ranks that did not take part. -/
theorem allOrNone_of_everyCallSelects {s : Participant Comm} (hs : Fresh s)
    (h : EveryCallSelects (MPIReduce.participate mpi) id s calls) (done : List (Fin n → Bool)) (next : Fin n → Bool)
    (hinitial : done ++ [next] <+: calls) : ∀ active ∈ done, AllOrNone active := by
  induction done using List.reverseRecOn generalizing next with
  | nil => simp
  | append_singleton done active ih =>
    have hdone := ih active ((List.prefix_append _ _).trans hinitial)
    have hactive : AllOrNone active := by
      by_contra hmixed
      simp only [AllOrNone, not_or, not_forall, Bool.not_eq_true, Bool.not_eq_false] at hmixed
      obtain ⟨⟨rank, hrank⟩, hsome⟩ := hmixed
      obtain ⟨t, hrun, ht⟩ := afterCalls_fresh mpi hs rank hdone
      obtain ⟨t', groupRanks, hcall, hflag, hcount, -⟩ := participate_of_fresh mpi active rank ht
      have hstale : ¬ Fresh t' := fun hfresh => by
        have hzero := hfresh (hflag.trans hrank)
        rw [hcount, length_activeRanks_eq_zero] at hzero
        obtain ⟨r, hr⟩ := hsome
        rw [hzero r] at hr
        exact absurd hr (by decide)
      obtain ⟨u, u', groupRanks', hbefore, hnext, hright, -⟩ := h _ next hinitial rank
      rw [afterCalls_concat, hrun, Option.bind_some, hcall, Option.map_some, Option.some_inj] at hbefore
      subst hbefore
      exact participate_of_not_fresh hstale hnext hright
    intro a ha
    rcases List.mem_append.mp ha with ha | ha
    · exact hdone a ha
    · rwa [List.mem_singleton.mp ha]

/-- The calls are right exactly if all or none took part in each call but the last. -/
theorem everyCallSelects_participate_iff {s : Participant Comm} (hs : Fresh s) :
    EveryCallSelects (MPIReduce.participate mpi) id s calls ↔ ∀ active ∈ calls.dropLast, AllOrNone active := by
  constructor
  · intro h active hactive
    have hne : calls ≠ [] := by
      rintro rfl
      exact List.not_mem_nil hactive
    refine allOrNone_of_everyCallSelects hs h calls.dropLast (calls.getLast hne) ?_ active hactive
    rw [List.dropLast_append_getLast hne]
  · rintro h done active ⟨rest, rfl⟩ rank
    have hdone : ∀ a ∈ done, AllOrNone a := fun a ha => h a (by
      rw [List.append_assoc, List.singleton_append, List.dropLast_append_of_ne_nil (List.cons_ne_nil _ _)]
      exact List.mem_append_left _ ha)
    obtain ⟨t, hrun, ht⟩ := afterCalls_fresh mpi hs rank hdone
    obtain ⟨t', groupRanks, hcall, -, hcount, htake⟩ := participate_of_fresh mpi active rank ht
    exact ⟨t, t', groupRanks, hrun, hcall, hcount, htake⟩

variable (mpi) in
theorem initState_toParticipant (active : Fin n → Bool) (rank : Fin n) (s : GatherSlice Comm) :
    (GatherSlice.initState mpi active rank s).map (Prod.map GatherSlice.toParticipant id) =
      MPIReduce.participate mpi active rank s.toParticipant := by
  rw [GatherSlice.initState, GatherSlice.init, MPIReduce.participate]
  by_cases hflag : s.isMPICommInitialized
  · simp only [if_pos hflag, GatherSlice.reset]
    cases select mpi active rank (⟨none, -1, 0, false⟩ : Participant Comm) with
    | none => rfl
    | some r => rfl
  · simp only [if_neg hflag]
    cases select mpi active rank s.toParticipant with
    | none => rfl
    | some r => rfl

variable (mpi) in
theorem afterCalls_initState (rank : Fin n) (s : GatherSlice Comm) (calls : List (Fin n → Bool)) :
    (afterCalls (GatherSlice.initState mpi) rank s calls).map GatherSlice.toParticipant =
      afterCalls (MPIReduce.participate mpi) rank s.toParticipant calls := by
  induction calls using List.reverseRecOn with
  | nil => rfl
  | append_singleton calls active ih =>
    rw [afterCalls_concat, afterCalls_concat, ← ih]
    cases afterCalls (GatherSlice.initState mpi) rank s calls with
    | none => rfl
    | some t =>
      rw [Option.bind_some, Option.map_some, Option.bind_some, ← initState_toParticipant]
      simp only [Option.map_map]
      rfl

theorem everyCallSelects_initState_iff (s : GatherSlice Comm) :
    EveryCallSelects (GatherSlice.initState mpi) GatherSlice.toParticipant s calls ↔
      EveryCallSelects (MPIReduce.participate mpi) id s.toParticipant calls := by
  refine forall_congr' fun done => forall_congr' fun active => forall_congr' fun hinitial => forall_congr' fun rank => ?_
  constructor
  · rintro ⟨t, t', groupRanks, hrun, hcall, hright⟩
    refine ⟨t.toParticipant, t'.toParticipant, groupRanks, ?_, ?_, hright⟩
    · rw [← afterCalls_initState, hrun, Option.map_some]
    · rw [← initState_toParticipant, hcall]
      rfl
  · rintro ⟨t, t', groupRanks, hrun, hcall, hright⟩
    rw [← afterCalls_initState] at hrun
    obtain ⟨u, hstate, rfl⟩ := Option.map_eq_some_iff.mp hrun
    rw [← initState_toParticipant] at hcall
    obtain ⟨⟨u', groupRanks'⟩, hnext, heq⟩ := Option.map_eq_some_iff.mp hcall
    obtain ⟨rfl, rfl⟩ := Prod.mk.inj heq
    exact ⟨u, u', groupRanks', hstate, hnext, hright⟩

/-- Both selections in any sequence of calls. `MPIReduce` is constructed with a call in which all ranks take part. -/
theorem every_call_selects_iff (n : ℕ) (mpi : Mpi n Comm) (calls : List (Fin n → Bool)) :
    (EveryCallSelects (MPIReduce.participate mpi) id Participant.initial ((fun _ => true) :: calls) ↔
      ∀ active ∈ calls.dropLast, AllOrNone active) ∧
    (EveryCallSelects (GatherSlice.initState mpi) GatherSlice.toParticipant GatherSlice.initial calls ↔
      ∀ active ∈ calls.dropLast, AllOrNone active) := by
  have hfresh : Fresh (Participant.initial : Participant Comm) := fun _ => rfl
  refine ⟨(everyCallSelects_participate_iff hfresh).trans ?_,
    (everyCallSelects_initState_iff _).trans (everyCallSelects_participate_iff hfresh)⟩
  cases calls with
  | nil => simp
  | cons active calls =>
    rw [List.dropLast_cons_of_ne_nil (List.cons_ne_nil _ _), List.forall_mem_cons]
    exact and_iff_right (.inl fun _ => rfl)

def ofGroups : Mpi n (List ℤ) where
  commCreate rank group := if (rank : ℤ) ∈ group then some group else none
  commRank rank comm := (comm.getD []).idxOf (rank : ℤ)

/-- The second of two ranks pauses once and then writes behind the end of `groupRanks`. -/
theorem paused_rank_overflows :
    ¬ EveryCallSelects (MPIReduce.participate ofGroups) id Participant.initial [fun _ => true, ![true, false], fun _ => true] ∧
    ¬ EveryCallSelects (GatherSlice.initState ofGroups) GatherSlice.toParticipant GatherSlice.initial
      [![true, false], fun _ => true] := by
  have hreduce : (afterCalls (MPIReduce.participate ofGroups) (1 : Fin 2) Participant.initial
      ([fun _ => true, ![true, false]] ++ [fun _ => true])).isSome = false := by decide
  have hgather : (afterCalls (GatherSlice.initState ofGroups) (1 : Fin 2) GatherSlice.initial
      ([![true, false]] ++ [fun _ => true])).isSome = false := by decide
  rw [afterCalls_concat] at hreduce hgather
  constructor
  · intro h
    obtain ⟨t, t', groupRanks, hrun, hcall, -⟩ := h [fun _ => true, ![true, false]] _ (List.prefix_refl _) 1
    rw [hrun, Option.bind_some, hcall] at hreduce
    exact absurd hreduce (by simp)
  · intro h
    obtain ⟨t, t', groupRanks, hrun, hcall, -⟩ := h [![true, false]] _ (List.prefix_refl _) 1
    rw [hrun, Option.bind_some, hcall] at hgather
    exact absurd hgather (by simp)

end Run

end PIConGPU.ParticipatingRanks
