import Mathlib

/-!
# Processes that copy cells by messages

Every process owns a memory of cells. A pending send reads some cells and puts a message with their
values on the network; a pending receive takes the first message with its source and its tag and stores
the values. Sends and receives of all processes happen in any order.
-/
namespace PIConGPU.MessagePassing

/-- A pending operation of a process: its partner, the tag, and the cells in the order of the message. -/
structure Post (R C : Type*) where
  owner : R
  peer : R
  tag : ℕ
  cells : List C

structure Message (R V : Type*) where
  source : R
  dest : R
  tag : ℕ
  payload : List V

structure State (R C V I J : Type*) where
  mem : R → C → V
  network : List (Message R V)
  unsent : Finset I
  awaited : Finset J

variable {R C V I J : Type*}

def read (p : Post R C) (mem : R → C → V) : List V := p.cells.map (mem p.owner)

def Matches (p : Post R C) (m : Message R V) : Prop := m.source = p.peer ∧ m.dest = p.owner ∧ m.tag = p.tag

variable (send : I → Post R C) (recv : J → Post R C)

/-- The sends and receives of a round fit together. -/
structure Paired (S : Finset I) (T : Finset J) (partner : J → I) : Prop where
  mem : ∀ j ∈ T, partner j ∈ S
  surj : ∀ i ∈ S, ∃ j ∈ T, partner j = i
  inj : ∀ j ∈ T, ∀ j' ∈ T, partner j = partner j' → j = j'
  owner : ∀ j ∈ T, (send (partner j)).owner = (recv j).peer
  peer : ∀ j ∈ T, (send (partner j)).peer = (recv j).owner
  tag : ∀ j ∈ T, (send (partner j)).tag = (recv j).tag
  unique : ∀ j ∈ T, ∀ j' ∈ T, (recv j).owner = (recv j').owner → (recv j).peer = (recv j').peer →
    (recv j).tag = (recv j').tag → j = j'
  length : ∀ j ∈ T, (send (partner j)).cells.length = (recv j).cells.length
  nodup : ∀ j ∈ T, (recv j).cells.Nodup
  disjoint : ∀ j ∈ T, ∀ j' ∈ T, j ≠ j' → (recv j).owner = (recv j').owner →
    (recv j).cells.Disjoint (recv j').cells

def Untouched (T : Finset J) (r : R) (c : C) : Prop := ∀ j ∈ T, (recv j).owner = r → c ∉ (recv j).cells

variable {send recv} {S : Finset I} {T : Finset J} {partner : J → I} {mem₀ : R → C → V}

theorem Paired.eq_of_matches (hp : Paired send recv S T partner) {j j' : J} (hj : j ∈ T) (hj' : j' ∈ T)
    {m m' : Message R V} (h : Matches (recv j) m) (h' : Matches (recv j') m')
    (hkey : m.source = m'.source ∧ m.dest = m'.dest ∧ m.tag = m'.tag) : j = j' :=
  hp.unique j hj j' hj' (h.2.1.symm.trans (hkey.2.1.trans h'.2.1)) (h.1.symm.trans (hkey.1.trans h'.1))
    (h.2.2.symm.trans (hkey.2.2.trans h'.2.2))

/-- The payload for a receive; cells that no receive touches are read with their first values. -/
structure Carries (send : I → Post R C) (recv : J → Post R C) (T : Finset J) (partner : J → I) (mem₀ : R → C → V)
    (j : J) (payload : List V) : Prop where
  length : payload.length = (recv j).cells.length
  value : ∀ (k : ℕ) c v, (send (partner j)).cells[k]? = some c → payload[k]? = some v →
    Untouched recv T (send (partner j)).owner c → v = mem₀ (send (partner j)).owner c

structure Invariant (send : I → Post R C) (recv : J → Post R C) (S : Finset I) (T : Finset J) (partner : J → I)
    (mem₀ : R → C → V) (s : State R C V I J) : Prop where
  unsent_subset : s.unsent ⊆ S
  awaited_subset : s.awaited ⊆ T
  awaited_of_unsent : ∀ j ∈ T, partner j ∈ s.unsent → j ∈ s.awaited
  sound : ∀ m ∈ s.network, ∃ j ∈ s.awaited, partner j ∉ s.unsent ∧ Matches (recv j) m ∧
    Carries send recv T partner mem₀ j m.payload
  complete : ∀ j ∈ s.awaited, partner j ∉ s.unsent → ∃ m ∈ s.network, Matches (recv j) m
  keys : s.network.Pairwise fun m m' => ¬(m.source = m'.source ∧ m.dest = m'.dest ∧ m.tag = m'.tag)
  unchanged : ∀ r c, (∀ j ∈ T, j ∉ s.awaited → (recv j).owner = r → c ∉ (recv j).cells) → s.mem r c = mem₀ r c
  stored : ∀ j ∈ T, j ∉ s.awaited → ∀ (k : ℕ) c c', (recv j).cells[k]? = some c →
    (send (partner j)).cells[k]? = some c' → Untouched recv T (send (partner j)).owner c' →
      s.mem (recv j).owner c = mem₀ (send (partner j)).owner c'

theorem Invariant.init (hp : Paired send recv S T partner) :
    Invariant send recv S T partner mem₀ ⟨mem₀, [], S, T⟩ where
  unsent_subset := Finset.Subset.refl _
  awaited_subset := Finset.Subset.refl _
  awaited_of_unsent _ hj _ := hj
  sound _ hm := absurd hm (by simp)
  complete j hj hsent := absurd (hp.mem j hj) hsent
  keys := List.Pairwise.nil
  unchanged _ _ _ := rfl
  stored _ hj hdone := absurd hj hdone

section Store

variable [DecidableEq C]

def store (cells : List C) (payload : List V) (m : C → V) : C → V :=
  (cells.zip payload).foldl (fun m p => Function.update m p.1 p.2) m

theorem store_of_notMem {cells : List C} {payload : List V} {m : C → V} {c : C} (hc : c ∉ cells) :
    store cells payload m c = m c := by
  induction cells generalizing payload m with
  | nil => rfl
  | cons x cells ih =>
    obtain ⟨hx, hcells⟩ := List.ne_and_not_mem_of_not_mem_cons hc
    cases payload with
    | nil => rfl
    | cons v payload =>
      simp only [store, List.zip_cons_cons, List.foldl_cons]
      exact (ih hcells).trans (Function.update_of_ne hx _ _)

theorem store_getElem {cells : List C} {payload : List V} {m : C → V} (hnd : cells.Nodup) {k : ℕ} {c : C} {v : V}
    (hc : cells[k]? = some c) (hv : payload[k]? = some v) : store cells payload m c = v := by
  induction cells generalizing payload m k with
  | nil => simp at hc
  | cons x cells ih =>
    obtain ⟨hx, hnd⟩ := List.nodup_cons.mp hnd
    cases payload with
    | nil => simp at hv
    | cons w payload =>
      simp only [store, List.zip_cons_cons, List.foldl_cons]
      cases k with
      | zero =>
        simp only [List.getElem?_cons_zero, Option.some_inj] at hc hv
        subst hc hv
        exact (store_of_notMem hx).trans (Function.update_self _ _ _)
      | succ k =>
        rw [List.getElem?_cons_succ] at hc hv
        exact ih hnd hc hv

end Store

theorem Invariant.sendStep [DecidableEq I] (hp : Paired send recv S T partner) {s : State R C V I J}
    (h : Invariant send recv S T partner mem₀ s) {i : I} (hi : i ∈ s.unsent) :
    Invariant send recv S T partner mem₀ { s with
      network := s.network ++ [⟨(send i).owner, (send i).peer, (send i).tag, read (send i) s.mem⟩]
      unsent := s.unsent.erase i } := by
  obtain ⟨j, hj, rfl⟩ := hp.surj i (h.unsent_subset hi)
  have hmatch : Matches (recv j) (⟨(send (partner j)).owner, (send (partner j)).peer, (send (partner j)).tag,
      read (send (partner j)) s.mem⟩ : Message R V) := ⟨hp.owner j hj, hp.peer j hj, hp.tag j hj⟩
  have hcarries : Carries send recv T partner mem₀ j (read (send (partner j)) s.mem) := by
    refine ⟨by rw [read, List.length_map, hp.length j hj], fun k c v hc hv hunt => ?_⟩
    rw [read, List.getElem?_map, hc, Option.map_some, Option.some_inj] at hv
    rw [← hv]
    exact h.unchanged _ _ fun j' hj' _ => hunt j' hj'
  refine ⟨(Finset.erase_subset _ _).trans h.unsent_subset, h.awaited_subset, fun j' hj' hu =>
    h.awaited_of_unsent j' hj' (Finset.mem_of_mem_erase hu), ?_, ?_, ?_, h.unchanged, h.stored⟩
  · intro m hm
    rcases List.mem_append.mp hm with hm | hm
    · obtain ⟨j', hj', hsent, hrest⟩ := h.sound m hm
      exact ⟨j', hj', fun hu => hsent (Finset.mem_of_mem_erase hu), hrest⟩
    · obtain rfl := List.mem_singleton.mp hm
      exact ⟨j, h.awaited_of_unsent j hj hi, Finset.notMem_erase _ _, hmatch, hcarries⟩
  · intro j' hj' hsent
    by_cases hjj : partner j' = partner j
    · obtain rfl := hp.inj j' (h.awaited_subset hj') j hj hjj
      exact ⟨_, List.mem_append_right _ (List.mem_singleton_self _), hmatch⟩
    · obtain ⟨m, hm, hm'⟩ := h.complete j' hj' fun hu => hsent (Finset.mem_erase.mpr ⟨hjj, hu⟩)
      exact ⟨m, List.mem_append_left _ hm, hm'⟩
  · refine List.pairwise_append.mpr ⟨h.keys, List.pairwise_singleton _ _, fun m hm m' hm' hkey => ?_⟩
    obtain rfl := List.mem_singleton.mp hm'
    obtain ⟨j', hj', hsent, hm'', -⟩ := h.sound m hm
    exact hsent (hp.eq_of_matches (h.awaited_subset hj') hj hm'' hmatch hkey ▸ hi)

theorem Invariant.receiveStep [DecidableEq R] [DecidableEq C] [DecidableEq J] (hp : Paired send recv S T partner) {s : State R C V I J}
    (h : Invariant send recv S T partner mem₀ s) {j : J} {m : Message R V} {l₁ l₂ : List (Message R V)}
    (hj : j ∈ s.awaited) (hnet : s.network = l₁ ++ m :: l₂) (hm : Matches (recv j) m) :
    Invariant send recv S T partner mem₀ { s with
      mem := Function.update s.mem (recv j).owner (store (recv j).cells m.payload (s.mem (recv j).owner))
      network := l₁ ++ l₂
      awaited := s.awaited.erase j } := by
  have hjT := h.awaited_subset hj
  have hmem : m ∈ s.network := by simp [hnet]
  have hother : ∀ m' ∈ l₁ ++ l₂, m' ∈ s.network := fun m' hm' => by
    rw [hnet]
    rcases List.mem_append.mp hm' with h' | h' <;> simp [h']
  have hkeys := h.keys
  rw [hnet, List.pairwise_middle fun h' hk => h' ⟨hk.1.symm, hk.2.1.symm, hk.2.2.symm⟩, List.pairwise_cons] at hkeys
  obtain ⟨hfresh, hkeys⟩ := hkeys
  obtain ⟨hsent, hcarries⟩ : partner j ∉ s.unsent ∧ Carries send recv T partner mem₀ j m.payload := by
    obtain ⟨j₀, hj₀, hsent, hm₀, hcarries⟩ := h.sound m hmem
    obtain rfl := hp.eq_of_matches (h.awaited_subset hj₀) hjT hm₀ hm ⟨rfl, rfl, rfl⟩
    exact ⟨hsent, hcarries⟩
  have hdone : ∀ j' ∈ T, j' ∉ s.awaited.erase j → j' = j ∨ j' ∉ s.awaited := fun j' _ hj' => by
    by_cases hjj : j' = j
    · exact .inl hjj
    · exact .inr fun hin => hj' (Finset.mem_erase.mpr ⟨hjj, hin⟩)
  have hkeep : ∀ r c, ((recv j).owner = r → c ∉ (recv j).cells) →
      Function.update s.mem (recv j).owner (store (recv j).cells m.payload (s.mem (recv j).owner)) r c =
        s.mem r c := by
    intro r c hc
    by_cases hr : (recv j).owner = r
    · subst hr
      rw [Function.update_self, store_of_notMem (hc rfl)]
    · rw [Function.update_of_ne (Ne.symm hr)]
  refine ⟨h.unsent_subset, (Finset.erase_subset _ _).trans h.awaited_subset, ?_, ?_, ?_, hkeys, ?_, ?_⟩
  · intro j' hj' hu
    exact Finset.mem_erase.mpr ⟨fun hjj => hsent (hjj ▸ hu), h.awaited_of_unsent j' hj' hu⟩
  · intro m' hm'
    obtain ⟨j', hj', hsent', hmatch, hcarries'⟩ := h.sound m' (hother m' hm')
    refine ⟨j', Finset.mem_erase.mpr ⟨fun hjj => ?_, hj'⟩, hsent', hmatch, hcarries'⟩
    subst hjj
    exact hfresh m' hm' ⟨hm.1.trans hmatch.1.symm, hm.2.1.trans hmatch.2.1.symm, hm.2.2.trans hmatch.2.2.symm⟩
  · intro j' hj' hsent'
    obtain ⟨hjj, hin⟩ := Finset.mem_erase.mp hj'
    obtain ⟨m', hm', hmatch⟩ := h.complete j' hin hsent'
    rw [hnet, List.mem_append, List.mem_cons] at hm'
    rcases hm' with hm' | rfl | hm'
    · exact ⟨m', List.mem_append_left _ hm', hmatch⟩
    · exact absurd (hp.eq_of_matches (h.awaited_subset hin) hjT hmatch hm ⟨rfl, rfl, rfl⟩) hjj
    · exact ⟨m', List.mem_append_right _ hm', hmatch⟩
  · intro r c hc
    refine (hkeep r c (hc j hjT (Finset.notMem_erase _ _))).trans (h.unchanged r c fun j' hj' hnot => ?_)
    exact hc j' hj' fun hin => hnot (Finset.mem_of_mem_erase hin)
  · intro j' hj' hnot k c c' hc hc' hunt
    rcases hdone j' hj' hnot with rfl | hnot'
    · have hlt : k < m.payload.length := by
        rw [hcarries.length]
        exact (List.getElem?_eq_some_iff.mp hc).1
      have hv := List.getElem?_eq_getElem hlt
      dsimp only
      rw [Function.update_self, store_getElem (hp.nodup j' hj') hc hv, hcarries.value k c' _ hc' hv hunt]
    · refine (hkeep _ c fun howner hin => ?_).trans (h.stored j' hj' hnot' k c c' hc hc' hunt)
      have hjj : j ≠ j' := fun hjj => hnot' (hjj ▸ hj)
      exact hp.disjoint j hjT j' hj' hjj howner hin (List.mem_of_getElem? hc)

section Runs

variable [DecidableEq R] [DecidableEq C] [DecidableEq I] [DecidableEq J]

variable (send recv) in
inductive Step : State R C V I J → State R C V I J → Prop
  | send {s : State R C V I J} {i : I} (hi : i ∈ s.unsent) :
      Step s { s with
        network := s.network ++ [⟨(send i).owner, (send i).peer, (send i).tag, read (send i) s.mem⟩]
        unsent := s.unsent.erase i }
  | receive {s : State R C V I J} {j : J} {m : Message R V} {l₁ l₂ : List (Message R V)} (hj : j ∈ s.awaited)
      (hnet : s.network = l₁ ++ m :: l₂) (hm : Matches (recv j) m) (hfirst : ∀ m' ∈ l₁, ¬Matches (recv j) m') :
      Step s { s with
        mem := Function.update s.mem (recv j).owner (store (recv j).cells m.payload (s.mem (recv j).owner))
        network := l₁ ++ l₂
        awaited := s.awaited.erase j }

abbrev Run (send : I → Post R C) (recv : J → Post R C) : State R C V I J → State R C V I J → Prop :=
  Relation.ReflTransGen (Step send recv)

theorem Invariant.step (hp : Paired send recv S T partner) {s s' : State R C V I J}
    (h : Invariant send recv S T partner mem₀ s) (hstep : Step send recv s s') :
    Invariant send recv S T partner mem₀ s' := by
  cases hstep with
  | send hi => exact h.sendStep hp hi
  | receive hj hnet hm _ => exact h.receiveStep hp hj hnet hm

theorem Invariant.run (hp : Paired send recv S T partner) {s : State R C V I J}
    (hrun : Run send recv ⟨mem₀, [], S, T⟩ s) : Invariant send recv S T partner mem₀ s := by
  induction hrun with
  | refl => exact Invariant.init hp
  | tail _ hstep ih => exact ih.step hp hstep

/-- A round that is not over goes on. -/
theorem Invariant.exists_step {s : State R C V I J} (h : Invariant send recv S T partner mem₀ s)
    (hopen : s.unsent.Nonempty ∨ s.awaited.Nonempty) : ∃ s', Step send recv s s' := by
  by_cases hun : s.unsent.Nonempty
  · obtain ⟨i, hi⟩ := hun
    exact ⟨_, .send hi⟩
  · obtain ⟨j, hj⟩ := hopen.resolve_left hun
    rw [Finset.not_nonempty_iff_eq_empty] at hun
    obtain ⟨m, hm, hmatch⟩ := h.complete j hj (by simp [hun])
    obtain ⟨l₁, l₂, hnet⟩ := List.append_of_mem hm
    have hkeys := h.keys
    rw [hnet, List.pairwise_append] at hkeys
    refine ⟨_, .receive hj hnet hmatch fun m' hm' hmatch' => ?_⟩
    exact hkeys.2.2 m' hm' m (List.mem_cons_self ..)
      ⟨hmatch'.1.trans hmatch.1.symm, hmatch'.2.1.trans hmatch.2.1.symm, hmatch'.2.2.trans hmatch.2.2.symm⟩

theorem Step.pending {s s' : State R C V I J} (h : Step send recv s s') :
    s'.unsent.card + s'.awaited.card + 1 = s.unsent.card + s.awaited.card := by
  cases h with
  | send hi =>
    have := Finset.card_erase_add_one hi
    dsimp only
    omega
  | receive hj _ _ _ =>
    have := Finset.card_erase_add_one hj
    dsimp only
    omega

theorem Run.exists_final (s : State R C V I J) : ∃ s', Run send recv s s' ∧ ∀ t, ¬Step send recv s' t := by
  induction hn : s.unsent.card + s.awaited.card using Nat.strong_induction_on generalizing s with
  | _ n ih =>
    by_cases hstep : ∃ t, Step send recv s t
    · obtain ⟨t, ht⟩ := hstep
      have hlt := ht.pending
      obtain ⟨s', hrun, hend⟩ := ih _ (by omega) t rfl
      exact ⟨s', .head ht hrun, hend⟩
    · exact ⟨s, .refl, fun t ht => hstep ⟨t, ht⟩⟩

/-- When a round is over, the cells of each receive hold what its partner's cells held at first, except for
cells that were written meanwhile, and all other cells are unchanged. -/
theorem Run.final (hp : Paired send recv S T partner) {s : State R C V I J}
    (hrun : Run send recv ⟨mem₀, [], S, T⟩ s) (hend : ∀ s', ¬Step send recv s s') :
    (s.network = [] ∧ s.unsent = ∅ ∧ s.awaited = ∅) ∧ (∀ r c, Untouched recv T r c → s.mem r c = mem₀ r c) ∧
      ∀ j ∈ T, ∀ (k : ℕ) c c', (recv j).cells[k]? = some c → (send (partner j)).cells[k]? = some c' →
        Untouched recv T (send (partner j)).owner c' →
          s.mem (recv j).owner c = mem₀ (send (partner j)).owner c' := by
  have h := Invariant.run hp hrun
  have hopen : ¬(s.unsent.Nonempty ∨ s.awaited.Nonempty) := fun hopen =>
    (h.exists_step hopen).elim fun s' => hend s'
  simp only [not_or, Finset.not_nonempty_iff_eq_empty] at hopen
  refine ⟨⟨List.eq_nil_iff_forall_not_mem.mpr fun m hm => ?_, hopen⟩, fun r c hc => ?_, fun j hj => ?_⟩
  · obtain ⟨j, hj, -⟩ := h.sound m hm
    simp [hopen.2] at hj
  · exact h.unchanged r c fun j hj _ => hc j hj
  · exact h.stored j hj (by simp [hopen.2])

end Runs

end PIConGPU.MessagePassing
