import PIConGPU.MessagePassing

/-!
# Processes that run through stages

Every process runs through the same number of stages. In a stage it executes tasks that write cells of its
memory, and at the same time it sends cells to other processes and receives cells from them. It enters the
next stage when all of this is done, and waits for other processes only in order to receive. Messages with
the same source, destination and tag do not overtake each other.

If the operations of a stage do not disturb each other, every run leaves the memory that the processes
have when they all execute one stage after the other.
-/
namespace PIConGPU.StagedProcesses

open MessagePassing (store store_of_notMem store_getElem)

/-- The partner of a message, the tag, and the cells in the order of the message. -/
structure Port (R C : Type*) where
  peer : R
  tag : ℕ
  cells : List C

/-- The operations of each process in each stage. A task writes some cells, each with a value that
depends on the memory. -/
structure Program (R C V T X : Type*) where
  length : ℕ
  tasks : ℕ → R → Finset T
  write : ℕ → R → T → C → Option ((C → V) → V)
  sends : ℕ → R → Finset X
  send : ℕ → R → X → Port R C
  receives : ℕ → R → Finset X
  receive : ℕ → R → X → Port R C

/-- A process in a stage, with the operations of the stage that are not done yet. -/
structure Process (C V T X : Type*) where
  mem : C → V
  stage : ℕ
  tasks : Finset T
  unsent : Finset X
  awaited : Finset X

/-- Messages wait in one queue for each source, destination and tag. -/
structure State (R C V T X : Type*) where
  process : R → Process C V T X
  queue : R × R × ℕ → List (List V)

namespace Program

variable {R C V T X : Type*} (P : Program R C V T X)

def load (k : ℕ) (r : R) (mem : C → V) : Process C V T X := ⟨mem, k, P.tasks k r, P.sends k r, P.receives k r⟩

def start (mem : R → C → V) : State R C V T X := ⟨fun r => P.load 0 r (mem r), fun _ => []⟩

def execute (k : ℕ) (r : R) (t : T) (mem : C → V) : C → V := fun c =>
  match P.write k r t c with
  | some f => f mem
  | none => mem c

def sendKey (k : ℕ) (r : R) (i : X) : R × R × ℕ := (r, (P.send k r i).peer, (P.send k r i).tag)

def receiveKey (k : ℕ) (r : R) (j : X) : R × R × ℕ := ((P.receive k r j).peer, r, (P.receive k r j).tag)

section Steps

variable [DecidableEq R] [DecidableEq C] [DecidableEq T] [DecidableEq X] (s : State R C V T X) (r : R)

def runTask (t : T) : State R C V T X :=
  { s with
    process := Function.update s.process r { s.process r with
      mem := P.execute (s.process r).stage r t (s.process r).mem
      tasks := (s.process r).tasks.erase t } }

def sendMessage (i : X) : State R C V T X where
  process := Function.update s.process r { s.process r with unsent := (s.process r).unsent.erase i }
  queue := Function.update s.queue (P.sendKey (s.process r).stage r i)
    (s.queue (P.sendKey (s.process r).stage r i) ++ [(P.send (s.process r).stage r i).cells.map (s.process r).mem])

def receiveMessage (j : X) (v : List V) (rest : List (List V)) : State R C V T X where
  process := Function.update s.process r { s.process r with
    mem := store (P.receive (s.process r).stage r j).cells v (s.process r).mem
    awaited := (s.process r).awaited.erase j }
  queue := Function.update s.queue (P.receiveKey (s.process r).stage r j) rest

def nextStage : State R C V T X :=
  { s with process := Function.update s.process r (P.load ((s.process r).stage + 1) r (s.process r).mem) }

inductive Step (ranks : Finset R) : State R C V T X → State R C V T X → Prop
  | task {s : State R C V T X} {r : R} {t : T} (hr : r ∈ ranks) (ht : t ∈ (s.process r).tasks) :
      Step ranks s (P.runTask s r t)
  | send {s : State R C V T X} {r : R} {i : X} (hr : r ∈ ranks) (hi : i ∈ (s.process r).unsent) :
      Step ranks s (P.sendMessage s r i)
  | receive {s : State R C V T X} {r : R} {j : X} {v : List V} {rest : List (List V)} (hr : r ∈ ranks)
      (hj : j ∈ (s.process r).awaited) (hq : s.queue (P.receiveKey (s.process r).stage r j) = v :: rest) :
      Step ranks s (P.receiveMessage s r j v rest)
  | next {s : State R C V T X} {r : R} (hr : r ∈ ranks) (htasks : (s.process r).tasks = ∅)
      (hunsent : (s.process r).unsent = ∅) (hawaited : (s.process r).awaited = ∅)
      (hstage : (s.process r).stage < P.length) : Step ranks s (P.nextStage s r)

abbrev Run (ranks : Finset R) : State R C V T X → State R C V T X → Prop := Relation.ReflTransGen (P.Step ranks)

end Steps

/-- A cell that no operation of a stage changes. -/
structure Stable (k : ℕ) (r : R) (c : C) : Prop where
  not_written : ∀ t ∈ P.tasks k r, P.write k r t c = none
  not_received : ∀ j ∈ P.receives k r, c ∉ (P.receive k r j).cells

/-- The operations of a stage do not disturb each other, and sends and receives of a stage fit together. -/
structure Valid (ranks : Finset R) : Prop where
  idle : ∀ r, P.tasks P.length r = ∅ ∧ P.sends P.length r = ∅ ∧ P.receives P.length r = ∅
  write_disjoint : ∀ k, ∀ r ∈ ranks, ∀ t ∈ P.tasks k r, ∀ t' ∈ P.tasks k r, t ≠ t' →
    ∀ c, (P.write k r t c).isSome → P.write k r t' c = none
  write_reads : ∀ k, ∀ r ∈ ranks, ∀ t ∈ P.tasks k r, ∀ c f, P.write k r t c = some f → ∀ mem mem' : C → V,
    (∀ c', P.Stable k r c' ∨ (P.write k r t c').isSome → mem c' = mem' c') → f mem = f mem'
  not_written : ∀ k, ∀ r ∈ ranks, ∀ j ∈ P.receives k r, ∀ c ∈ (P.receive k r j).cells,
    ∀ t ∈ P.tasks k r, P.write k r t c = none
  nodup : ∀ k, ∀ r ∈ ranks, ∀ j ∈ P.receives k r, (P.receive k r j).cells.Nodup
  disjoint : ∀ k, ∀ r ∈ ranks, ∀ j ∈ P.receives k r, ∀ j' ∈ P.receives k r, j ≠ j' →
    (P.receive k r j).cells.Disjoint (P.receive k r j').cells
  sent_stable : ∀ k, ∀ r ∈ ranks, ∀ i ∈ P.sends k r, ∀ c ∈ (P.send k r i).cells, P.Stable k r c
  send_unique : ∀ k, ∀ r ∈ ranks, ∀ i ∈ P.sends k r, ∀ i' ∈ P.sends k r,
    P.sendKey k r i = P.sendKey k r i' → i = i'
  receive_unique : ∀ k, ∀ r ∈ ranks, ∀ j ∈ P.receives k r, ∀ j' ∈ P.receives k r,
    P.receiveKey k r j = P.receiveKey k r j' → j = j'
  receiver : ∀ k, ∀ r ∈ ranks, ∀ i ∈ P.sends k r, (P.send k r i).peer ∈ ranks ∧
    ∃ j ∈ P.receives k (P.send k r i).peer, P.receiveKey k (P.send k r i).peer j = P.sendKey k r i
  sender : ∀ k, ∀ r ∈ ranks, ∀ j ∈ P.receives k r, (P.receive k r j).peer ∈ ranks ∧
    ∃ i ∈ P.sends k (P.receive k r j).peer, P.sendKey k (P.receive k r j).peer i = P.receiveKey k r j ∧
      (P.send k (P.receive k r j).peer i).cells.length = (P.receive k r j).cells.length

/-- The memory of each process before each stage, if all processes execute the stages together. -/
structure Reference (ranks : Finset R) (ref : ℕ → R → C → V) : Prop where
  written : ∀ k, ∀ r ∈ ranks, ∀ t ∈ P.tasks k r, ∀ c f, P.write k r t c = some f →
    ref (k + 1) r c = f (ref k r)
  received : ∀ k, ∀ r ∈ ranks, ∀ j ∈ P.receives k r, ∀ i ∈ P.sends k (P.receive k r j).peer,
    P.sendKey k (P.receive k r j).peer i = P.receiveKey k r j → ∀ (n : ℕ) c c',
      (P.receive k r j).cells[n]? = some c → (P.send k (P.receive k r j).peer i).cells[n]? = some c' →
        ref (k + 1) r c = ref k (P.receive k r j).peer c'
  stable : ∀ k < P.length, ∀ r ∈ ranks, ∀ c, P.Stable k r c → ref (k + 1) r c = ref k r c

section Invariant

def Done (r : R) (p : Process C V T X) (c : C) : Prop :=
  (∃ t ∈ P.tasks p.stage r, t ∉ p.tasks ∧ (P.write p.stage r t c).isSome) ∨
    ∃ j ∈ P.receives p.stage r, j ∉ p.awaited ∧ c ∈ (P.receive p.stage r j).cells

/-- What holds of each process: the finished operations have their final effect, and nothing else changed. -/
structure LocalInvariant (ref : ℕ → R → C → V) (r : R) (p : Process C V T X) : Prop where
  stage_le : p.stage ≤ P.length
  tasks : p.tasks ⊆ P.tasks p.stage r
  unsent : p.unsent ⊆ P.sends p.stage r
  awaited : p.awaited ⊆ P.receives p.stage r
  changed : ∀ c, P.Done r p c → p.mem c = ref (p.stage + 1) r c
  unchanged : ∀ c, ¬P.Done r p c → p.mem c = ref p.stage r c

/-- A stage in which a message passes through a queue. -/
def Uses (key : R × R × ℕ) (k : ℕ) : Prop := ∃ i ∈ P.sends k key.1, P.sendKey k key.1 i = key

def Sent (p : Process C V T X) (key : R × R × ℕ) (k : ℕ) : Prop :=
  k < p.stage ∨ k = p.stage ∧ ∀ i ∈ p.unsent, P.sendKey k key.1 i ≠ key

def Received (p : Process C V T X) (key : R × R × ℕ) (k : ℕ) : Prop :=
  k < p.stage ∨ k = p.stage ∧ ∀ j ∈ p.awaited, P.receiveKey k key.2.1 j ≠ key

def Carries (ref : ℕ → R → C → V) (key : R × R × ℕ) (k : ℕ) (v : List V) : Prop :=
  ∀ i ∈ P.sends k key.1, P.sendKey k key.1 i = key → v = (P.send k key.1 i).cells.map (ref k key.1)

/-- The messages in a queue belong to the stages of which the message is sent but not received. -/
structure Channel (ref : ℕ → R → C → V) (s : State R C V T X) (key : R × R × ℕ) : Prop where
  delivered : ∀ k, P.Uses key k → P.Received (s.process key.2.1) key k → P.Sent (s.process key.1) key k
  pending : ∃ ks : List ℕ, ks.Pairwise (· < ·) ∧
    (∀ k, k ∈ ks ↔ P.Uses key k ∧ P.Sent (s.process key.1) key k ∧ ¬P.Received (s.process key.2.1) key k) ∧
    List.Forall₂ (P.Carries ref key) ks (s.queue key)

structure Invariant (ranks : Finset R) (ref : ℕ → R → C → V) (s : State R C V T X) : Prop where
  processes : ∀ r ∈ ranks, P.LocalInvariant ref r (s.process r)
  channel : ∀ key, key.1 ∈ ranks → key.2.1 ∈ ranks → P.Channel ref s key

variable {P} {ranks : Finset R} {ref : ℕ → R → C → V}

theorem not_done_load (k : ℕ) (r : R) (mem : C → V) (c : C) : ¬P.Done r (P.load k r mem) c := by
  rintro (⟨t, ht, ht', -⟩ | ⟨j, hj, hj', -⟩)
  · exact ht' ht
  · exact hj' hj

theorem Stable.not_done {r : R} {p : Process C V T X} {c : C} (h : P.Stable p.stage r c) : ¬P.Done r p c := by
  rintro (⟨t, ht, -, hsome⟩ | ⟨j, hj, -, hc⟩)
  · simp [h.not_written t ht] at hsome
  · exact h.not_received j hj hc

theorem LocalInvariant.load {k : ℕ} {r : R} {mem : C → V} (hk : k ≤ P.length) (hmem : ∀ c, mem c = ref k r c) :
    P.LocalInvariant ref r (P.load k r mem) where
  stage_le := hk
  tasks := Finset.Subset.refl _
  unsent := Finset.Subset.refl _
  awaited := Finset.Subset.refl _
  changed c h := absurd h (not_done_load k r mem c)
  unchanged c _ := hmem c

/-- A message of a later stage is neither sent nor received. -/
theorem Uses.not_sent {key : R × R × ℕ} {k : ℕ} (h : P.Uses key k) (mem : C → V) {n : ℕ} (hn : n ≤ k) :
    ¬P.Sent (P.load n key.1 mem) key k := by
  obtain ⟨i, hi, hkey⟩ := h
  rintro (hlt | ⟨rfl, hall⟩)
  · exact absurd hlt (not_lt.mpr hn)
  · exact hall i hi hkey

theorem Uses.not_received {key : R × R × ℕ} {k : ℕ} (h : P.Uses key k) (hv : P.Valid ranks) (hr : key.1 ∈ ranks)
    (mem : C → V) {n : ℕ} (hn : n ≤ k) : ¬P.Received (P.load n key.2.1 mem) key k := by
  obtain ⟨i, hi, hkey⟩ := h
  rintro (hlt | ⟨rfl, hall⟩)
  · exact absurd hlt (not_lt.mpr hn)
  · have hpeer : (P.send k key.1 i).peer = key.2.1 := congrArg (·.2.1) hkey
    obtain ⟨-, j, hj, hkey'⟩ := hv.receiver k key.1 hr i hi
    rw [hpeer] at hj hkey'
    exact hall j hj (hkey'.trans hkey)

theorem Invariant.start {mem : R → C → V} (hmem : ∀ r ∈ ranks, ∀ c, mem r c = ref 0 r c) (hv : P.Valid ranks) :
    P.Invariant ranks ref (P.start mem) where
  processes r hr := .load (Nat.zero_le _) (hmem r hr)
  channel key h1 _ := ⟨fun k hu hr => absurd hr (hu.not_received hv h1 _ (Nat.zero_le k)), [], List.Pairwise.nil,
    fun k => ⟨fun h => absurd h (by simp), fun h => absurd h.2.1 (h.1.not_sent _ (Nat.zero_le k))⟩, List.Forall₂.nil⟩

theorem Channel.congr {s s' : State R C V T X} {key : R × R × ℕ} (h : P.Channel ref s key)
    (hsent : ∀ k, P.Uses key k → (P.Sent (s'.process key.1) key k ↔ P.Sent (s.process key.1) key k))
    (hreceived : ∀ k, P.Uses key k → (P.Received (s'.process key.2.1) key k ↔ P.Received (s.process key.2.1) key k))
    (hqueue : s'.queue key = s.queue key) : P.Channel ref s' key := by
  obtain ⟨hdel, ks, hsort, hks, hvals⟩ := h
  refine ⟨fun k hu hr => (hsent k hu).mpr (hdel k hu ((hreceived k hu).mp hr)), ks, hsort, fun k => ?_, ?_⟩
  · rw [hks k]
    refine and_congr_right fun hu => ?_
    rw [hsent k hu, hreceived k hu]
  · rwa [hqueue]

section Task

variable [DecidableEq T]

theorem LocalInvariant.task {r : R} {p : Process C V T X} {t : T} (hv : P.Valid ranks) (href : P.Reference ranks ref)
    (hr : r ∈ ranks) (h : P.LocalInvariant ref r p) (ht : t ∈ p.tasks) :
    P.LocalInvariant ref r { p with mem := P.execute p.stage r t p.mem, tasks := p.tasks.erase t } := by
  have htP := h.tasks ht
  have hdone : ∀ c, P.Done r { p with mem := P.execute p.stage r t p.mem, tasks := p.tasks.erase t } c ↔
      P.Done r p c ∨ (P.write p.stage r t c).isSome := by
    intro c
    constructor
    · rintro (⟨t', ht', hnot, hsome⟩ | hreceived)
      · by_cases htt : t' = t
        · exact .inr (htt ▸ hsome)
        · exact .inl (.inl ⟨t', ht', fun hin => hnot (Finset.mem_erase.mpr ⟨htt, hin⟩), hsome⟩)
      · exact .inl (.inr hreceived)
    · rintro ((⟨t', ht', hnot, hsome⟩ | hreceived) | hsome)
      · exact .inl ⟨t', ht', fun hin => hnot (Finset.mem_of_mem_erase hin), hsome⟩
      · exact .inr hreceived
      · exact .inl ⟨t, htP, Finset.notMem_erase _ _, hsome⟩
  have hfresh : ∀ c, (P.write p.stage r t c).isSome → ¬P.Done r p c := by
    rintro c hsome (⟨t', ht', hnot, hsome'⟩ | ⟨j, hj, -, hc⟩)
    · have hne : t ≠ t' := fun htt => hnot (htt ▸ ht)
      simp [hv.write_disjoint _ r hr t htP t' ht' hne c hsome] at hsome'
    · simp [hv.not_written _ r hr j hj c hc t htP] at hsome
  refine ⟨h.stage_le, (Finset.erase_subset _ _).trans h.tasks, h.unsent, h.awaited, fun c hc => ?_, fun c hc => ?_⟩
  · dsimp only
    rw [execute]
    split
    · rename_i f hf
      rw [href.written _ r hr t htP c f hf]
      refine hv.write_reads _ r hr t htP c f hf _ _ fun c' hc' => h.unchanged c' ?_
      exact hc'.elim Stable.not_done (hfresh c')
    · rename_i hf
      exact h.changed c (((hdone c).mp hc).resolve_right (by simp [hf]))
  · rw [hdone, not_or] at hc
    dsimp only
    rw [execute, Option.not_isSome_iff_eq_none.mp hc.2]
    exact h.unchanged c hc.1

end Task

section Receive

variable [DecidableEq C] [DecidableEq X]

theorem LocalInvariant.receive {r : R} {p : Process C V T X} {j : X} {v : List V} (hv : P.Valid ranks) (hr : r ∈ ranks)
    (h : P.LocalInvariant ref r p) (hj : j ∈ p.awaited)
    (hval : ∀ (n : ℕ) c, (P.receive p.stage r j).cells[n]? = some c → v[n]? = some (ref (p.stage + 1) r c)) :
    P.LocalInvariant ref r { p with
      mem := store (P.receive p.stage r j).cells v p.mem, awaited := p.awaited.erase j } := by
  have hjP := h.awaited hj
  have hdone : ∀ c, P.Done r { p with
      mem := store (P.receive p.stage r j).cells v p.mem, awaited := p.awaited.erase j } c ↔
      P.Done r p c ∨ c ∈ (P.receive p.stage r j).cells := by
    intro c
    constructor
    · rintro (hwritten | ⟨j', hj', hnot, hc⟩)
      · exact .inl (.inl hwritten)
      · by_cases hjj : j' = j
        · exact .inr (hjj ▸ hc)
        · exact .inl (.inr ⟨j', hj', fun hin => hnot (Finset.mem_erase.mpr ⟨hjj, hin⟩), hc⟩)
    · rintro ((hwritten | ⟨j', hj', hnot, hc⟩) | hc)
      · exact .inl hwritten
      · exact .inr ⟨j', hj', fun hin => hnot (Finset.mem_of_mem_erase hin), hc⟩
      · exact .inr ⟨j, hjP, Finset.notMem_erase _ _, hc⟩
  refine ⟨h.stage_le, h.tasks, h.unsent, (Finset.erase_subset _ _).trans h.awaited, fun c hc => ?_, fun c hc => ?_⟩
  · by_cases hcell : c ∈ (P.receive p.stage r j).cells
    · obtain ⟨n, hn⟩ := List.mem_iff_getElem?.mp hcell
      exact store_getElem (hv.nodup _ r hr j hjP) hn (hval n c hn)
    · exact (store_of_notMem hcell).trans (h.changed c (((hdone c).mp hc).resolve_right hcell))
  · rw [hdone, not_or] at hc
    exact (store_of_notMem hc.2).trans (h.unchanged c hc.1)

end Receive

theorem LocalInvariant.next {r : R} {p : Process C V T X} (href : P.Reference ranks ref) (hr : r ∈ ranks)
    (h : P.LocalInvariant ref r p) (htasks : p.tasks = ∅) (hawaited : p.awaited = ∅) (hstage : p.stage < P.length) :
    P.LocalInvariant ref r (P.load (p.stage + 1) r p.mem) := by
  refine .load hstage fun c => ?_
  by_cases hc : P.Done r p c
  · exact h.changed c hc
  · have hstable : P.Stable p.stage r c := by
      refine ⟨fun t ht => ?_, fun j hj hcell => hc (.inr ⟨j, hj, by simp [hawaited], hcell⟩)⟩
      by_contra hsome
      exact hc (.inl ⟨t, ht, by simp [htasks], Option.isSome_iff_ne_none.mpr hsome⟩)
    rw [h.unchanged c hc, href.stable _ hstage r hr c hstable]

section Channels

variable {s : State R C V T X} {r : R}

section Send

variable [DecidableEq R] [DecidableEq X] {i : X} (hv : P.Valid ranks) (hr : r ∈ ranks)
  (hlocal : P.LocalInvariant ref r (s.process r)) (hi : i ∈ (s.process r).unsent)

include hv hr hlocal hi

theorem sent_sendMessage (key : R × R × ℕ) (k : ℕ) : P.Sent ((P.sendMessage s r i).process key.1) key k ↔
    P.Sent (s.process key.1) key k ∨ key = P.sendKey (s.process r).stage r i ∧ k = (s.process r).stage := by
  by_cases hkr : key.1 = r
  · simp only [sendMessage, hkr, Function.update_self, Sent]
    constructor
    · rintro (hlt | ⟨rfl, hall⟩)
      · exact .inl (.inl hlt)
      · by_cases hkey : key = P.sendKey (s.process r).stage r i
        · exact .inr ⟨hkey, rfl⟩
        · refine .inl (.inr ⟨rfl, fun i' hi' => ?_⟩)
          by_cases hii : i' = i
          · exact hii ▸ Ne.symm hkey
          · exact hall i' (Finset.mem_erase.mpr ⟨hii, hi'⟩)
    · rintro ((hlt | ⟨rfl, hall⟩) | ⟨rfl, rfl⟩)
      · exact .inl hlt
      · exact .inr ⟨rfl, fun i' hi' => hall i' (Finset.mem_of_mem_erase hi')⟩
      · refine .inr ⟨rfl, fun i' hi' he => ?_⟩
        obtain ⟨hne, hi'⟩ := Finset.mem_erase.mp hi'
        exact hne (hv.send_unique _ r hr i' (hlocal.unsent hi') i (hlocal.unsent hi) he)
  · have hkey : key ≠ P.sendKey (s.process r).stage r i := fun h => hkr (h ▸ rfl)
    simp only [sendMessage, Function.update_of_ne hkr, hkey, false_and, or_false]

theorem Channel.send {key : R × R × ℕ} (h : P.Channel ref s key) : P.Channel ref (P.sendMessage s r i) key := by
  have hsent := sent_sendMessage hv hr hlocal hi key
  have hreceived : ∀ k, P.Received ((P.sendMessage s r i).process key.2.1) key k ↔
      P.Received (s.process key.2.1) key k := by
    intro k
    by_cases hkr : key.2.1 = r
    · simp only [sendMessage, hkr, Function.update_self, Received]
    · simp only [sendMessage, Function.update_of_ne hkr]
  by_cases hkey : key = P.sendKey (s.process r).stage r i
  · have hopen : ¬P.Sent (s.process key.1) key (s.process r).stage := by
      rw [hkey]
      rintro (hlt | ⟨-, hall⟩)
      · exact lt_irrefl _ hlt
      · exact hall i hi rfl
    have hlt : ∀ k, P.Sent (s.process key.1) key k → k < (s.process r).stage := by
      rw [hkey]
      rintro k (hlt | ⟨rfl, hall⟩)
      · exact hlt
      · exact absurd rfl (hall i hi)
    have huses : P.Uses key (s.process r).stage := hkey ▸ ⟨i, hlocal.unsent hi, rfl⟩
    obtain ⟨hdel, ks, hsort, hks, hvals⟩ := h
    refine ⟨fun k hu hk => (hsent k).mpr (.inl (hdel k hu ((hreceived k).mp hk))), ks ++ [(s.process r).stage],
      List.pairwise_append.mpr ⟨hsort, List.pairwise_singleton _ _, fun k hk k' hk' => ?_⟩, fun k => ?_, ?_⟩
    · obtain rfl := List.mem_singleton.mp hk'
      exact hlt k ((hks k).mp hk).2.1
    · rw [List.mem_append, List.mem_singleton, hks k, hreceived k, hsent k]
      constructor
      · rintro (⟨hu, hk, hnot⟩ | rfl)
        · exact ⟨hu, .inl hk, hnot⟩
        · exact ⟨huses, .inr ⟨hkey, rfl⟩, fun hk => hopen (hdel _ huses hk)⟩
      · rintro ⟨hu, hk | ⟨-, rfl⟩, hnot⟩
        · exact .inl ⟨hu, hk, hnot⟩
        · exact .inr rfl
    · subst hkey
      simp only [sendMessage, Function.update_self]
      refine List.rel_append hvals (List.Forall₂.cons (fun i' hi' he => ?_) List.Forall₂.nil)
      obtain rfl := hv.send_unique _ r hr i' hi' i (hlocal.unsent hi) he
      refine List.map_congr_left fun c hc => hlocal.unchanged c ?_
      exact (hv.sent_stable _ r hr i' hi' c hc).not_done
  · refine h.congr (fun k _ => ?_) (fun k _ => hreceived k) (Function.update_of_ne hkey _ _)
    simp [hsent k, hkey]

end Send

section Receive

variable {j : X} {v : List V} {rest : List (List V)} (hv : P.Valid ranks) (hr : r ∈ ranks)
  (hlocal : P.LocalInvariant ref r (s.process r)) (hj : j ∈ (s.process r).awaited)

include hv hr hlocal hj

/-- The first message of the queue is the one of the stage in which the receiver is. -/
theorem Channel.exists_first (h : P.Channel ref s (P.receiveKey (s.process r).stage r j))
    (hq : s.queue (P.receiveKey (s.process r).stage r j) = v :: rest) :
    P.Carries ref (P.receiveKey (s.process r).stage r j) (s.process r).stage v ∧
      P.Sent (s.process (P.receive (s.process r).stage r j).peer) (P.receiveKey (s.process r).stage r j)
        (s.process r).stage ∧
      ∃ ks : List ℕ, ((s.process r).stage :: ks).Pairwise (· < ·) ∧
        (∀ k, k ∈ (s.process r).stage :: ks ↔ P.Uses (P.receiveKey (s.process r).stage r j) k ∧
          P.Sent (s.process (P.receive (s.process r).stage r j).peer) (P.receiveKey (s.process r).stage r j) k ∧
            ¬P.Received (s.process r) (P.receiveKey (s.process r).stage r j) k) ∧
        List.Forall₂ (P.Carries ref (P.receiveKey (s.process r).stage r j)) ks rest := by
  obtain ⟨-, i, hi, hkey, -⟩ := hv.sender _ r hr j (hlocal.awaited hj)
  have huses : P.Uses (P.receiveKey (s.process r).stage r j) (s.process r).stage := ⟨i, hi, hkey⟩
  have hawait : ¬P.Received (s.process r) (P.receiveKey (s.process r).stage r j) (s.process r).stage := by
    rintro (hlt | ⟨-, hall⟩)
    · exact lt_irrefl _ hlt
    · exact hall j hj rfl
  obtain ⟨-, ks, hsort, hks, hvals⟩ := h
  rw [hq] at hvals
  cases hvals with
  | @cons k _ ks _ hv hvals =>
    obtain ⟨-, hsent, hnot⟩ := (hks k).mp (List.mem_cons_self ..)
    have hle : (s.process r).stage ≤ k := not_lt.mp fun hlt => hnot (.inl hlt)
    obtain rfl : k = (s.process r).stage := by
      by_contra hne
      -- then the message of the current stage was sent before, and it is still in the queue
      have hsent' : P.Sent (s.process (P.receive (s.process r).stage r j).peer)
          (P.receiveKey (s.process r).stage r j) (s.process r).stage := by
        rcases hsent with h1 | ⟨h1, -⟩
        · exact .inl (lt_of_le_of_lt hle h1)
        · exact .inl (h1 ▸ lt_of_le_of_ne hle (Ne.symm hne))
      rcases List.mem_cons.mp ((hks _).mpr ⟨huses, hsent', hawait⟩) with h1 | h1
      · exact hne h1.symm
      · exact absurd (List.rel_of_pairwise_cons hsort h1) (not_lt.mpr hle)
    exact ⟨hv, hsent, ks, hsort, hks, hvals⟩

variable [DecidableEq R] [DecidableEq C] [DecidableEq X]

theorem received_receiveMessage (key : R × R × ℕ) (k : ℕ) : P.Received
    ((P.receiveMessage s r j v rest).process key.2.1) key k ↔
      P.Received (s.process key.2.1) key k ∨
        key = P.receiveKey (s.process r).stage r j ∧ k = (s.process r).stage := by
  by_cases hkr : key.2.1 = r
  · simp only [receiveMessage, hkr, Function.update_self, Received]
    constructor
    · rintro (hlt | ⟨rfl, hall⟩)
      · exact .inl (.inl hlt)
      · by_cases hkey : key = P.receiveKey (s.process r).stage r j
        · exact .inr ⟨hkey, rfl⟩
        · refine .inl (.inr ⟨rfl, fun j' hj' => ?_⟩)
          by_cases hjj : j' = j
          · exact hjj ▸ Ne.symm hkey
          · exact hall j' (Finset.mem_erase.mpr ⟨hjj, hj'⟩)
    · rintro ((hlt | ⟨rfl, hall⟩) | ⟨rfl, rfl⟩)
      · exact .inl hlt
      · exact .inr ⟨rfl, fun j' hj' => hall j' (Finset.mem_of_mem_erase hj')⟩
      · refine .inr ⟨rfl, fun j' hj' he => ?_⟩
        obtain ⟨hne, hj'⟩ := Finset.mem_erase.mp hj'
        exact hne (hv.receive_unique _ r hr j' (hlocal.awaited hj') j (hlocal.awaited hj) he)
  · have hkey : key ≠ P.receiveKey (s.process r).stage r j := fun h => hkr (h ▸ rfl)
    simp only [receiveMessage, Function.update_of_ne hkr, hkey, false_and, or_false]

theorem Channel.receive (hq : s.queue (P.receiveKey (s.process r).stage r j) = v :: rest) {key : R × R × ℕ}
    (h : P.Channel ref s key) : P.Channel ref (P.receiveMessage s r j v rest) key := by
  have hreceived : ∀ k, P.Received ((P.receiveMessage s r j v rest).process key.2.1) key k ↔
      P.Received (s.process key.2.1) key k ∨ key = P.receiveKey (s.process r).stage r j ∧ k = (s.process r).stage :=
    received_receiveMessage hv hr hlocal hj key
  have hsent : ∀ k, P.Sent ((P.receiveMessage s r j v rest).process key.1) key k ↔
      P.Sent (s.process key.1) key k := by
    intro k
    by_cases hkr : key.1 = r
    · simp only [receiveMessage, hkr, Function.update_self, Sent]
    · simp only [receiveMessage, Function.update_of_ne hkr]
  by_cases hkey : key = P.receiveKey (s.process r).stage r j
  · subst hkey
    obtain ⟨-, hsent', ks, hsort, hks, hvals⟩ := h.exists_first hv hr hlocal hj hq
    refine ⟨fun k hu hk => (hsent k).mpr ?_, ks, hsort.of_cons, fun k => ?_, ?_⟩
    · rcases (hreceived k).mp hk with hk | ⟨-, rfl⟩
      · exact h.delivered k hu hk
      · exact hsent'
    · rw [hreceived k, hsent k]
      constructor
      · intro hk
        obtain ⟨hu, hsent, hnot⟩ := (hks k).mp (List.mem_cons_of_mem _ hk)
        refine ⟨hu, hsent, fun h => h.elim hnot fun he => ?_⟩
        exact lt_irrefl _ (he.2 ▸ List.rel_of_pairwise_cons hsort hk)
      · rintro ⟨hu, hsent, hnot⟩
        rcases List.mem_cons.mp ((hks k).mpr ⟨hu, hsent, fun h => hnot (.inl h)⟩) with rfl | hk
        · exact absurd (.inr ⟨rfl, rfl⟩) hnot
        · exact hk
    · simpa only [receiveMessage, Function.update_self] using hvals
  · refine h.congr (fun k _ => hsent k) (fun k _ => ?_) (Function.update_of_ne hkey _ _)
    simp [hreceived k, hkey]

end Receive

/-- A process enters the next stage only after its messages have been sent and received. -/
theorem Channel.next [DecidableEq R] (hv : P.Valid ranks) (hunsent : (s.process r).unsent = ∅)
    (hawaited : (s.process r).awaited = ∅) {key : R × R × ℕ} (hkey : key.1 ∈ ranks) (h : P.Channel ref s key) :
    P.Channel ref (P.nextStage s r) key := by
  refine h.congr (fun k hu => ?_) (fun k hu => ?_) rfl
  · by_cases hkr : key.1 = r
    · have hnot : (s.process r).stage + 1 ≤ k →
          ¬P.Sent (P.load ((s.process r).stage + 1) r (s.process r).mem) key k := fun hle => by
        rw [← hkr] at hle ⊢
        exact hu.not_sent _ hle
      simp only [nextStage, hkr, Function.update_self]
      constructor
      · intro hsent
        have hlt : k < (s.process r).stage + 1 := not_le.mp fun hle => hnot hle hsent
        rcases Nat.lt_succ_iff_lt_or_eq.mp hlt with h1 | rfl
        · exact .inl h1
        · exact .inr ⟨rfl, by simp [hunsent]⟩
      · rintro (hlt | ⟨rfl, -⟩)
        · exact .inl (Nat.lt_succ_of_lt hlt)
        · exact .inl (Nat.lt_succ_self _)
    · simp only [nextStage, Function.update_of_ne hkr]
  · by_cases hkr : key.2.1 = r
    · have hnot : (s.process r).stage + 1 ≤ k →
          ¬P.Received (P.load ((s.process r).stage + 1) r (s.process r).mem) key k := fun hle => by
        rw [← hkr] at hle ⊢
        exact hu.not_received hv hkey _ hle
      simp only [nextStage, hkr, Function.update_self]
      constructor
      · intro hreceived
        have hlt : k < (s.process r).stage + 1 := not_le.mp fun hle => hnot hle hreceived
        rcases Nat.lt_succ_iff_lt_or_eq.mp hlt with h1 | rfl
        · exact .inl h1
        · exact .inr ⟨rfl, by simp [hawaited]⟩
      · rintro (hlt | ⟨rfl, -⟩)
        · exact .inl (Nat.lt_succ_of_lt hlt)
        · exact .inl (Nat.lt_succ_self _)
    · simp only [nextStage, Function.update_of_ne hkr]

end Channels

section Runs

variable (P) in
/-- The operations that a process still has to execute, and the stages it still has to enter. -/
def remaining (r : R) (p : Process C V T X) : ℕ :=
  p.tasks.card + p.unsent.card + p.awaited.card + ∑ k ∈ Finset.Ico (p.stage + 1) (P.length + 1),
    ((P.tasks k r).card + (P.sends k r).card + (P.receives k r).card + 1)

theorem remaining_next {r : R} {p : Process C V T X} (hstage : p.stage < P.length) :
    P.remaining r (P.load (p.stage + 1) r p.mem) < P.remaining r p := by
  have hsum := Finset.sum_eq_sum_Ico_succ_bot (show p.stage + 1 < P.length + 1 by omega) fun k =>
    (P.tasks k r).card + (P.sends k r).card + (P.receives k r).card + 1
  simp only [remaining, load, hsum]
  omega

variable [DecidableEq R] {s s' : State R C V T X}

theorem forall_update {r : R} {p : Process C V T X} (h : ∀ r' ∈ ranks, P.LocalInvariant ref r' (s.process r'))
    (hp : P.LocalInvariant ref r p) : ∀ r' ∈ ranks, P.LocalInvariant ref r' (Function.update s.process r p r') := by
  intro r' hr'
  by_cases hrr : r' = r
  · rw [hrr, Function.update_self]
    exact hp
  · rw [Function.update_of_ne hrr]
    exact h r' hr'

theorem sum_remaining_update {r : R} {p : Process C V T X} (hr : r ∈ ranks)
    (hlt : P.remaining r p < P.remaining r (s.process r)) :
    ∑ r' ∈ ranks, P.remaining r' (Function.update s.process r p r') <
      ∑ r' ∈ ranks, P.remaining r' (s.process r') := by
  refine Finset.sum_lt_sum (fun r' _ => ?_) ⟨r, hr, by rwa [Function.update_self]⟩
  by_cases hrr : r' = r
  · rw [hrr, Function.update_self]
    exact hlt.le
  · rw [Function.update_of_ne hrr]

variable [DecidableEq C] [DecidableEq T] [DecidableEq X]

theorem Invariant.step (hv : P.Valid ranks) (href : P.Reference ranks ref) (h : P.Invariant ranks ref s)
    (hstep : P.Step ranks s s') : P.Invariant ranks ref s' := by
  cases hstep with
  | @task r t hr ht =>
    refine ⟨forall_update h.processes ((h.processes r hr).task hv href hr ht), fun key h1 h2 => ?_⟩
    refine (h.channel key h1 h2).congr (fun k _ => ?_) (fun k _ => ?_) rfl
    · by_cases hkr : key.1 = r
      · simp only [runTask, hkr, Function.update_self, Sent]
      · simp only [runTask, Function.update_of_ne hkr]
    · by_cases hkr : key.2.1 = r
      · simp only [runTask, hkr, Function.update_self, Received]
      · simp only [runTask, Function.update_of_ne hkr]
  | @send r i hr hi =>
    have hlocal := h.processes r hr
    refine ⟨forall_update h.processes ?_, fun key h1 h2 => (h.channel key h1 h2).send hv hr hlocal hi⟩
    exact ⟨hlocal.stage_le, hlocal.tasks, (Finset.erase_subset _ _).trans hlocal.unsent, hlocal.awaited,
      hlocal.changed, hlocal.unchanged⟩
  | @receive r j v rest hr hj hq =>
    have hlocal := h.processes r hr
    refine ⟨forall_update h.processes (hlocal.receive hv hr hj fun n c hc => ?_),
      fun key h1 h2 => (h.channel key h1 h2).receive hv hr hlocal hj hq⟩
    obtain ⟨hpeer, i, hi, hkey, hlength⟩ := hv.sender _ r hr j (hlocal.awaited hj)
    obtain ⟨hval, -⟩ := (h.channel _ hpeer hr).exists_first hv hr hlocal hj hq
    have hlt : n < (P.send (s.process r).stage (P.receive (s.process r).stage r j).peer i).cells.length := by
      rw [hlength]
      exact (List.getElem?_eq_some_iff.mp hc).1
    have hc' := List.getElem?_eq_getElem hlt
    have hval := hval i hi hkey
    dsimp only [receiveKey] at hval
    rw [hval, List.getElem?_map, hc', Option.map_some,
      href.received _ r hr j (hlocal.awaited hj) i hi hkey n c _ hc hc']
  | @next r hr htasks hunsent hawaited hstage =>
    exact ⟨forall_update h.processes ((h.processes r hr).next href hr htasks hawaited hstage),
      fun key h1 h2 => (h.channel key h1 h2).next hv hunsent hawaited h1⟩

theorem Invariant.run (hv : P.Valid ranks) (href : P.Reference ranks ref) {mem : R → C → V}
    (hmem : ∀ r ∈ ranks, ∀ c, mem r c = ref 0 r c) (hrun : P.Run ranks (P.start mem) s) : P.Invariant ranks ref s := by
  induction hrun with
  | refl => exact .start hmem hv
  | tail _ hstep ih => exact ih.step hv href hstep

/-- A process that awaits a message can receive it, or its partner, if it is not behind, can send it. -/
theorem Invariant.exists_step_of_awaited (hv : P.Valid ranks) (h : P.Invariant ranks ref s) {r : R} (hr : r ∈ ranks)
    (hmin : ∀ r' ∈ ranks, (s.process r).stage ≤ (s.process r').stage) {j : X} (hj : j ∈ (s.process r).awaited) :
    ∃ s', P.Step ranks s s' := by
  obtain ⟨hpeer, i, hi, hkey, -⟩ := hv.sender _ r hr j ((h.processes r hr).awaited hj)
  by_cases hsent : P.Sent (s.process (P.receive (s.process r).stage r j).peer)
      (P.receiveKey (s.process r).stage r j) (s.process r).stage
  · have hawait : ¬P.Received (s.process r) (P.receiveKey (s.process r).stage r j) (s.process r).stage := by
      rintro (hlt | ⟨-, hall⟩)
      · exact lt_irrefl _ hlt
      · exact hall j hj rfl
    obtain ⟨-, ks, -, hks, hvals⟩ := h.channel (P.receiveKey (s.process r).stage r j) hpeer hr
    have hmem := (hks (s.process r).stage).mpr ⟨⟨i, hi, hkey⟩, hsent, hawait⟩
    cases hq : s.queue (P.receiveKey (s.process r).stage r j) with
    | nil =>
      rw [hq, List.forall₂_nil_right_iff] at hvals
      simp [hvals] at hmem
    | cons v rest => exact ⟨_, .receive hr hj hq⟩
  · have hsame : (s.process r).stage = (s.process (P.receive (s.process r).stage r j).peer).stage :=
      le_antisymm (hmin _ hpeer) (not_lt.mp fun hlt => hsent (.inl hlt))
    obtain ⟨i', hi', -⟩ : ∃ i' ∈ (s.process (P.receive (s.process r).stage r j).peer).unsent,
        P.sendKey (s.process r).stage (P.receiveKey (s.process r).stage r j).1 i' =
          P.receiveKey (s.process r).stage r j := by
      by_contra hnone
      exact hsent (.inr ⟨hsame, fun i' hi' he => hnone ⟨i', hi', he⟩⟩)
    exact ⟨_, .send hpeer hi'⟩

/-- The process that is furthest behind never waits for ever. -/
theorem Invariant.exists_step (hv : P.Valid ranks) (h : P.Invariant ranks ref s)
    (hopen : ∃ r ∈ ranks, (s.process r).stage < P.length) : ∃ s', P.Step ranks s s' := by
  obtain ⟨r₀, hr₀, hlt₀⟩ := hopen
  obtain ⟨r, hr, hmin⟩ := ranks.exists_min_image (fun r => (s.process r).stage) ⟨r₀, hr₀⟩
  rcases (s.process r).tasks.eq_empty_or_nonempty with htasks | ⟨t, ht⟩
  · rcases (s.process r).unsent.eq_empty_or_nonempty with hunsent | ⟨i, hi⟩
    · rcases (s.process r).awaited.eq_empty_or_nonempty with hawaited | ⟨j, hj⟩
      · exact ⟨_, .next hr htasks hunsent hawaited (lt_of_le_of_lt (hmin r₀ hr₀) hlt₀)⟩
      · exact h.exists_step_of_awaited hv hr hmin hj
    · exact ⟨_, .send hr hi⟩
  · exact ⟨_, .task hr ht⟩

theorem Step.remaining_lt (h : P.Step ranks s s') :
    ∑ r ∈ ranks, P.remaining r (s'.process r) < ∑ r ∈ ranks, P.remaining r (s.process r) := by
  cases h with
  | @task r t hr ht =>
    refine sum_remaining_update hr ?_
    have := Finset.card_erase_add_one ht
    simp only [remaining]
    omega
  | @send r i hr hi =>
    refine sum_remaining_update hr ?_
    have := Finset.card_erase_add_one hi
    simp only [remaining]
    omega
  | @receive r j v rest hr hj _ =>
    refine sum_remaining_update hr ?_
    have := Finset.card_erase_add_one hj
    simp only [remaining]
    omega
  | @next r hr _ _ _ hstage => exact sum_remaining_update hr (remaining_next hstage)

theorem Run.exists_final (ranks : Finset R) (s : State R C V T X) :
    ∃ s', P.Run ranks s s' ∧ ∀ t, ¬P.Step ranks s' t := by
  induction hn : ∑ r ∈ ranks, P.remaining r (s.process r) using Nat.strong_induction_on generalizing s with
  | _ n ih =>
    by_cases hstep : ∃ t, P.Step ranks s t
    · obtain ⟨t, ht⟩ := hstep
      obtain ⟨s', hrun, hend⟩ := ih _ (hn ▸ ht.remaining_lt) t rfl
      exact ⟨s', .head ht hrun, hend⟩
    · exact ⟨s, .refl, fun t ht => hstep ⟨t, ht⟩⟩

theorem Run.final (hv : P.Valid ranks) (href : P.Reference ranks ref) {mem : R → C → V}
    (hmem : ∀ r ∈ ranks, ∀ c, mem r c = ref 0 r c) (hrun : P.Run ranks (P.start mem) s)
    (hend : ∀ t, ¬P.Step ranks s t) :
    (∀ r ∈ ranks, (s.process r).stage = P.length ∧ ∀ c, (s.process r).mem c = ref P.length r c) ∧
      ∀ key, key.1 ∈ ranks → key.2.1 ∈ ranks → s.queue key = [] := by
  have h := Invariant.run hv href hmem hrun
  have hstage : ∀ r ∈ ranks, (s.process r).stage = P.length := fun r hr => by
    by_contra hne
    obtain ⟨t, ht⟩ := h.exists_step hv ⟨r, hr, lt_of_le_of_ne (h.processes r hr).stage_le hne⟩
    exact hend t ht
  refine ⟨fun r hr => ⟨hstage r hr, fun c => ?_⟩, fun key h1 h2 => ?_⟩
  · have hlocal := h.processes r hr
    rw [hlocal.unchanged c, hstage r hr]
    rintro (⟨t, ht, -⟩ | ⟨j, hj, -⟩)
    · rw [hstage r hr, (hv.idle r).1] at ht
      simp at ht
    · rw [hstage r hr, (hv.idle r).2.2] at hj
      simp at hj
  · obtain ⟨-, ks, -, hks, hvals⟩ := h.channel key h1 h2
    have hnil : ks = [] := List.eq_nil_iff_forall_not_mem.mpr fun k hk => by
      obtain ⟨⟨i, hi, -⟩, hsent, hnot⟩ := (hks k).mp hk
      simp only [Sent, Received, hstage _ h1, hstage _ h2, not_or, not_lt] at hsent hnot
      rcases hsent with hlt | ⟨rfl, -⟩
      · exact absurd hlt (not_lt.mpr hnot.1)
      · rw [(hv.idle _).2.1] at hi
        simp at hi
    rw [hnil, List.forall₂_nil_left_iff] at hvals
    exact hvals

end Runs

end Invariant

end Program

end PIConGPU.StagedProcesses
