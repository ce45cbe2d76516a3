import Mathlib

/-!
# Threads of one block

Two patterns of a block of threads between two barriers: every thread draws a ticket from one
of several atomic counters, and every thread stores a value at an address of its own.
-/
namespace PIConGPU.BlockThreads

variable {ι κ A V : Type*} [DecidableEq ι] [DecidableEq κ] [DecidableEq A]

/-- One atomic addition of a thread to the counter named by its key. -/
def fetchAdd (key : ι → Option κ) (st : (κ → ℕ) × (ι → ℕ)) (t : ι) : (κ → ℕ) × (ι → ℕ) :=
  match key t with
  | none => st
  | some k => (Function.update st.1 k (st.1 k + 1), Function.update st.2 t (st.1 k))

def fetchAddAll (key : ι → Option κ) (order : List ι) (counter : κ → ℕ) : (κ → ℕ) × (ι → ℕ) :=
  order.foldl (fetchAdd key) (counter, fun _ => 0)

/-- The tickets of the threads with one key number the values its counter passes through. -/
structure Tickets (key : ι → Option κ) (threads : Finset ι) (counter counter' : κ → ℕ)
    (ticket : ι → ℕ) : Prop where
  counter_eq : ∀ k, counter' k = counter k + (threads.filter fun t => key t = some k).card
  le : ∀ t ∈ threads, ∀ k, key t = some k → counter k ≤ ticket t
  lt : ∀ t ∈ threads, ∀ k, key t = some k → ticket t < counter' k
  inj : ∀ t ∈ threads, ∀ t' ∈ threads, ∀ k, key t = some k → key t' = some k →
    ticket t = ticket t' → t = t'

theorem Tickets.fetchAdd {key : ι → Option κ} {threads : Finset ι} {counter : κ → ℕ}
    {st : (κ → ℕ) × (ι → ℕ)} (h : Tickets key threads counter st.1 st.2) {t : ι} (ht : t ∉ threads) :
    Tickets key (insert t threads) counter (fetchAdd key st t).1 (fetchAdd key st t).2 := by
  have hle : ∀ k, counter k ≤ st.1 k := fun k => by
    rw [h.counter_eq k]
    exact Nat.le_add_right _ _
  have hne : ∀ t' ∈ threads, t' ≠ t := fun t' ht' he => ht (he ▸ ht')
  cases hk : key t with
  | none =>
    have hst : BlockThreads.fetchAdd key st t = st := by simp [BlockThreads.fetchAdd, hk]
    rw [hst]
    refine ⟨fun k => ?_, fun t' ht' k hk' => ?_, fun t' ht' k hk' => ?_,
      fun t₁ h₁ t₂ h₂ k hk₁ hk₂ he => ?_⟩
    · rw [Finset.filter_insert, if_neg (by simp [hk]), h.counter_eq k]
    · rcases Finset.mem_insert.mp ht' with rfl | ht'
      · simp [hk] at hk'
      · exact h.le t' ht' k hk'
    · rcases Finset.mem_insert.mp ht' with rfl | ht'
      · simp [hk] at hk'
      · exact h.lt t' ht' k hk'
    · rcases Finset.mem_insert.mp h₁ with rfl | h₁
      · simp [hk] at hk₁
      rcases Finset.mem_insert.mp h₂ with rfl | h₂
      · simp [hk] at hk₂
      exact h.inj t₁ h₁ t₂ h₂ k hk₁ hk₂ he
  | some k₀ =>
    have hst : BlockThreads.fetchAdd key st t =
        (Function.update st.1 k₀ (st.1 k₀ + 1), Function.update st.2 t (st.1 k₀)) := by
      simp [BlockThreads.fetchAdd, hk]
    rw [hst]
    dsimp only
    have hold : ∀ t' ∈ threads, Function.update st.2 t (st.1 k₀) t' = st.2 t' :=
      fun t' ht' => Function.update_of_ne (hne t' ht') _ _
    have hmono : ∀ k, st.1 k ≤ Function.update st.1 k₀ (st.1 k₀ + 1) k := by
      intro k
      by_cases hk' : k = k₀
      · subst hk'
        simp
      · rw [Function.update_of_ne hk']
    refine ⟨fun k => ?_, fun t' ht' k hk' => ?_, fun t' ht' k hk' => ?_,
      fun t₁ h₁ t₂ h₂ k hk₁ hk₂ he => ?_⟩
    · by_cases hk' : k = k₀
      · subst hk'
        rw [Finset.filter_insert, if_pos hk, Finset.card_insert_of_notMem (by simp [ht]),
          Function.update_self, h.counter_eq k, Nat.add_assoc]
      · rw [Finset.filter_insert, if_neg (by simp [hk, Ne.symm hk']), Function.update_of_ne hk',
          h.counter_eq k]
    · rcases Finset.mem_insert.mp ht' with rfl | ht'
      · obtain rfl : k₀ = k := by simpa [hk] using hk'
        simpa using hle k₀
      · rw [hold t' ht']
        exact h.le t' ht' k hk'
    · rcases Finset.mem_insert.mp ht' with rfl | ht'
      · obtain rfl : k₀ = k := by simpa [hk] using hk'
        simp
      · rw [hold t' ht']
        exact (h.lt t' ht' k hk').trans_le (hmono k)
    · rcases Finset.mem_insert.mp h₁ with rfl | m₁
      · rcases Finset.mem_insert.mp h₂ with rfl | m₂
        · rfl
        · obtain rfl : k₀ = k := by simpa [hk] using hk₁
          have hlt := h.lt t₂ m₂ k₀ hk₂
          rw [Function.update_self, hold t₂ m₂] at he
          omega
      · rcases Finset.mem_insert.mp h₂ with rfl | m₂
        · obtain rfl : k₀ = k := by simpa [hk] using hk₂
          have hlt := h.lt t₁ m₁ k₀ hk₁
          rw [Function.update_self, hold t₁ m₁] at he
          omega
        · rw [hold t₁ m₁, hold t₂ m₂] at he
          exact h.inj t₁ m₁ t₂ m₂ k hk₁ hk₂ he

theorem tickets_foldl (key : ι → Option κ) (counter : κ → ℕ) (order : List ι) (hnd : order.Nodup) :
    Tickets key order.toFinset counter (fetchAddAll key order counter).1
      (fetchAddAll key order counter).2 := by
  unfold fetchAddAll
  induction order using List.reverseRecOn with
  | nil => exact ⟨by simp, by simp, by simp, by simp⟩
  | append_singleton order t ih =>
    obtain ⟨h1, -, h2⟩ := List.nodup_append.mp hnd
    rw [List.foldl_append, List.toFinset_append, Finset.union_comm]
    simp only [List.foldl_cons, List.foldl_nil, List.toFinset_cons, List.toFinset_nil,
      insert_empty_eq, Finset.singleton_union]
    exact (ih h1).fetchAdd fun ht => h2 t (List.mem_toFinset.mp ht) t (by simp) rfl

omit [DecidableEq ι] in
/-- Every value between the two counters was drawn. -/
theorem Tickets.exists_ticket {key : ι → Option κ} {threads : Finset ι} {counter counter' : κ → ℕ}
    {ticket : ι → ℕ} (h : Tickets key threads counter counter' ticket) {k : κ} {i : ℕ}
    (h0 : counter k ≤ i) (h1 : i < counter' k) : ∃ t ∈ threads, key t = some k ∧ ticket t = i := by
  have hmaps : Set.MapsTo ticket (threads.filter fun t => key t = some k)
      (Finset.Ico (counter k) (counter' k)) := by
    intro t ht
    obtain ⟨ht, hk⟩ := Finset.mem_filter.mp ht
    exact Finset.mem_coe.mpr (Finset.mem_Ico.mpr ⟨h.le t ht k hk, h.lt t ht k hk⟩)
  have hinj : Set.InjOn ticket (threads.filter fun t => key t = some k) := by
    intro t ht t' ht' he
    obtain ⟨ht, hk⟩ := Finset.mem_filter.mp ht
    obtain ⟨ht', hk'⟩ := Finset.mem_filter.mp ht'
    exact h.inj t ht t' ht' k hk hk' he
  have hcard : (Finset.Ico (counter k) (counter' k)).card ≤
      (threads.filter fun t => key t = some k).card := by
    rw [Nat.card_Ico, h.counter_eq k]
    omega
  obtain ⟨t, ht, rfl⟩ := Finset.surjOn_of_injOn_of_card_le ticket hmaps hinj hcard
    (Finset.mem_coe.mpr (Finset.mem_Ico.mpr ⟨h0, h1⟩))
  obtain ⟨ht, hk⟩ := Finset.mem_filter.mp ht
  exact ⟨t, ht, hk, rfl⟩

theorem card_filter_lt {T n : ℕ} (hn : n ≤ T) : (Finset.univ.filter fun t : Fin T => t.val < n).card = n := by
  rcases Nat.eq_or_lt_of_le hn with rfl | hlt
  · simp
  · have hIio : (Finset.univ.filter fun t : Fin T => t.val < n) = Finset.Iio ⟨n, hlt⟩ := by
      ext t
      simp [Fin.lt_def]
    rw [hIio, Fin.card_Iio]

/-- The threads of a block in the order of a permutation. -/
def threadOrder {T : ℕ} (σ : Equiv.Perm (Fin T)) : List (Fin T) := (List.finRange T).map σ

theorem mem_threadOrder {T : ℕ} (σ : Equiv.Perm (Fin T)) (t : Fin T) : t ∈ threadOrder σ := by
  simpa [threadOrder] using σ.surjective t

theorem tickets_threadOrder {T : ℕ} (key : Fin T → Option κ) (counter : κ → ℕ)
    (σ : Equiv.Perm (Fin T)) :
    Tickets key Finset.univ counter (fetchAddAll key (threadOrder σ) counter).1
      (fetchAddAll key (threadOrder σ) counter).2 := by
  have hnd : (threadOrder σ).Nodup := (List.nodup_finRange T).map σ.injective
  have huniv : (threadOrder σ).toFinset = Finset.univ := by
    ext t
    simp [mem_threadOrder]
  rw [← huniv]
  exact tickets_foldl key counter _ hnd

def scatter (addr : ι → Option A) (val : ι → V) (threads : List ι) (mem : A → V) : A → V :=
  threads.foldl (fun m t => match addr t with
    | none => m
    | some a => Function.update m a (val t)) mem

omit [DecidableEq ι] in
theorem scatter_of_forall_ne {addr : ι → Option A} (val : ι → V) {threads : List ι} (mem : A → V) {a : A}
    (h : ∀ t ∈ threads, addr t ≠ some a) : scatter addr val threads mem a = mem a := by
  unfold scatter
  induction threads generalizing mem with
  | nil => rfl
  | cons t threads ih =>
    rw [List.foldl_cons, ih _ fun t' ht' => h t' (List.mem_cons_of_mem _ ht')]
    have ht := h t (List.mem_cons_self ..)
    cases hb : addr t with
    | none => rfl
    | some b => exact Function.update_of_ne (fun he => ht (by rw [hb, he])) _ _

/-- With distinct addresses the order of the stores does not matter. -/
theorem scatter_of_mem {addr : ι → Option A} (val : ι → V) {threads : List ι} (mem : A → V)
    (hinj : ∀ t ∈ threads, ∀ t' ∈ threads, ∀ a, addr t = some a → addr t' = some a → t = t')
    {t : ι} (ht : t ∈ threads) {a : A} (ha : addr t = some a) : scatter addr val threads mem a = val t := by
  induction threads generalizing mem with
  | nil => simp at ht
  | cons s threads ih =>
    have hinj' : ∀ t ∈ threads, ∀ t' ∈ threads, ∀ a, addr t = some a → addr t' = some a → t = t' :=
      fun t ht t' ht' => hinj t (List.mem_cons_of_mem _ ht) t' (List.mem_cons_of_mem _ ht')
    by_cases hmem : t ∈ threads
    · exact ih _ hinj' hmem
    · obtain rfl : t = s := (List.mem_cons.mp ht).resolve_right hmem
      have hrest : ∀ t' ∈ threads, addr t' ≠ some a := by
        intro t' ht' ha'
        exact hmem (hinj t ht t' (List.mem_cons_of_mem _ ht') a ha ha' ▸ ht')
      have hrw : scatter addr val (t :: threads) mem a =
          scatter addr val threads (Function.update mem a (val t)) a := by
        simp [scatter, ha]
      rw [hrw, scatter_of_forall_ne val _ hrest, Function.update_self]

omit [DecidableEq ι] in
/-- Only the values of the threads with an address matter. -/
theorem scatter_congr {addr : ι → Option A} {val val' : ι → V} (threads : List ι) (mem : A → V)
    (h : ∀ t a, addr t = some a → val t = val' t) : scatter addr val threads mem = scatter addr val' threads mem := by
  unfold scatter
  congr 1
  funext m t
  cases ht : addr t with
  | none => rfl
  | some a =>
    dsimp only
    rw [h t a ht]

section Numbering

variable {T : ℕ} (p : Fin T → Bool) (σ : Equiv.Perm (Fin T))

/-- The threads selected by `p` draw from one counter that starts at zero: the counter and the
numbers of the threads. -/
def numberThreads : ℕ × (Fin T → ℕ) :=
  let drawn := fetchAddAll (fun t => if p t then some () else none) (threadOrder σ) fun _ => 0
  (drawn.1 (), drawn.2)

/-- Every selected thread writes its index at its number; the other entries stay unwritten. -/
def threadIndices : ℕ → Option (Fin T) :=
  scatter (fun t => if p t then some ((numberThreads p σ).2 t) else none) some (threadOrder σ) fun _ => none

theorem numberThreads_count : (numberThreads p σ).1 = (Finset.univ.filter fun t => p t = true).card := by
  have h := (tickets_threadOrder (fun t => if p t then some () else none) (fun _ => 0) σ).counter_eq ()
  rw [zero_add] at h
  refine h.trans (congrArg _ (Finset.filter_congr fun t _ => ?_))
  cases p t <;> simp

variable {p σ}

theorem numberThreads_lt {t : Fin T} (ht : p t = true) : (numberThreads p σ).2 t < (numberThreads p σ).1 :=
  (tickets_threadOrder (fun t => if p t then some () else none) (fun _ => 0) σ).lt t (Finset.mem_univ t) ()
    (by simp [ht])

theorem numberThreads_inj {t t' : Fin T} (ht : p t = true) (ht' : p t' = true)
    (he : (numberThreads p σ).2 t = (numberThreads p σ).2 t') : t = t' :=
  (tickets_threadOrder (fun t => if p t then some () else none) (fun _ => 0) σ).inj t (Finset.mem_univ t) t'
    (Finset.mem_univ t') () (by simp [ht]) (by simp [ht']) he

theorem exists_numberThreads {i : ℕ} (hi : i < (numberThreads p σ).1) :
    ∃ t, p t = true ∧ (numberThreads p σ).2 t = i := by
  obtain ⟨t, -, hk, ht⟩ :=
    (tickets_threadOrder (fun t => if p t then some () else none) (fun _ => 0) σ).exists_ticket
      (k := ()) (Nat.zero_le i) hi
  refine ⟨t, ?_, ht⟩
  by_contra hp
  simp [hp] at hk

theorem threadIndices_eq {t : Fin T} (ht : p t = true) :
    threadIndices p σ ((numberThreads p σ).2 t) = some t := by
  refine scatter_of_mem some _ (fun t₁ _ t₂ _ a h₁ h₂ => ?_) (mem_threadOrder σ t)
    (by simp [ht])
  have hp₁ : p t₁ = true := by
    by_contra hp
    simp [hp] at h₁
  have hp₂ : p t₂ = true := by
    by_contra hp
    simp [hp] at h₂
  rw [if_pos hp₁] at h₁
  rw [if_pos hp₂] at h₂
  exact numberThreads_inj hp₁ hp₂ (Option.some.inj (h₁.trans h₂.symm))

/-- The selected threads in the order of their numbers. -/
theorem exists_threadList (p : Fin T → Bool) (σ : Equiv.Perm (Fin T)) : ∃ l : List (Fin T),
    l.length = (numberThreads p σ).1 ∧ (∀ t, p t = true → l[(numberThreads p σ).2 t]? = some t) ∧
      (l : Multiset (Fin T)) = (Finset.univ.filter fun t => p t = true).val := by
  choose thread hthread using fun i : Fin (numberThreads p σ).1 => exists_numberThreads i.isLt
  have hinj : Function.Injective thread := fun i j he => Fin.ext <| by
    rw [← (hthread i).2, ← (hthread j).2, he]
  refine ⟨List.ofFn thread, List.length_ofFn, fun t ht => ?_, ?_⟩
  · have hlt := numberThreads_lt (σ := σ) ht
    rw [List.getElem?_ofFn, dif_pos hlt, Option.some_inj]
    exact numberThreads_inj (hthread _).1 ht (hthread ⟨_, hlt⟩).2
  · refine (Multiset.Nodup.ext (Multiset.coe_nodup.mpr (List.nodup_ofFn.mpr hinj)) (Finset.nodup _)).mpr fun t => ?_
    rw [Multiset.mem_coe, List.mem_ofFn, Finset.mem_val, Finset.mem_filter]
    constructor
    · rintro ⟨i, rfl⟩
      exact ⟨Finset.mem_univ _, (hthread i).1⟩
    · rintro ⟨-, ht⟩
      have hlt := numberThreads_lt (σ := σ) ht
      exact ⟨⟨_, hlt⟩, numberThreads_inj (hthread _).1 ht (hthread ⟨_, hlt⟩).2⟩

end Numbering

/-- A loop over the first `n` threads that may fail, with an invariant that counts the threads. -/
theorem foldlM_range {S : Type*} {step : S → ℕ → Option S} {n : ℕ} (inv : ℕ → S → Prop)
    (hstep : ∀ j < n, ∀ s, inv j s → ∃ s', step s j = some s' ∧ inv (j + 1) s') {s : S} (h0 : inv 0 s) :
    ∃ s', (List.range n).foldlM step s = some s' ∧ inv n s' := by
  induction n with
  | zero => exact ⟨s, rfl, h0⟩
  | succ n ih =>
    obtain ⟨s₁, h₁, hinv₁⟩ := ih fun j hj => hstep j (by omega)
    obtain ⟨s₂, h₂, hinv₂⟩ := hstep n (by omega) s₁ hinv₁
    refine ⟨s₂, ?_, hinv₂⟩
    rw [List.range_succ, List.foldlM_append, h₁]
    simp [h₂]

end PIConGPU.BlockThreads
