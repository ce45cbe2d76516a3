import PIConGPU.KernelLaunch
import PIConGPU.Mask

/-!
# The stack of exchanged particles

A call of `pushN` adds to a counter of 32 bits. When the counter goes past the capacity, the call takes what is left
and sets the counter back to the capacity, while other calls go on adding. A call that gets elements pushes an entry to
an index.
-/
namespace PIConGPU.ExchangePush

open KernelLaunch

structure ExchangeMemoryIndex (D : ℕ) where
  superCell : DataSpace D
  startIdx : ℕ
  count : ℕ

structure Memory (D : ℕ) where
  currentSize : ℕ
  indexSize : ℕ
  index : ℕ → Option (ExchangeMemoryIndex D)

def empty (D : ℕ) : Memory D := ⟨0, 0, fun _ => none⟩

/-- Where a call stands. It returns a box with its first element and its number of elements, and has written an index
entry if there are any. -/
inductive Phase
  | call
  | reset (oldSize : ℕ)
  | pushIndex (oldSize count : ℕ)
  | writeIndex (oldSize count tmp : ℕ)
  | done (offset size : ℕ) (tmp : Option ℕ)

variable {D : ℕ}

inductive PushN (maxSize count : ℕ) (superCell : DataSpace D) : Memory D → Phase → Memory D → Phase → Prop
  | add {m : Memory D} : PushN maxSize count superCell m .call
      { m with currentSize := (m.currentSize + count) % 2^32 }
      (if maxSize < (m.currentSize + count) % 2^32 then .reset m.currentSize else .pushIndex m.currentSize count)
  | exch {m : Memory D} {oldSize : ℕ} : PushN maxSize count superCell m (.reset oldSize)
      { m with currentSize := maxSize }
      (if maxSize ≤ oldSize then .done 0 0 none else .pushIndex oldSize (maxSize - oldSize))
  | pushIndex {m : Memory D} {oldSize n : ℕ} : PushN maxSize count superCell m (.pushIndex oldSize n)
      { m with indexSize := (m.indexSize + 1) % 2^32 } (.writeIndex oldSize n m.indexSize)
  | writeIndex {m : Memory D} {oldSize n tmp : ℕ} : PushN maxSize count superCell m (.writeIndex oldSize n tmp)
      { m with index := Function.update m.index tmp (some ⟨superCell, oldSize, n⟩) } (.done oldSize n (some tmp))

/-- An addition does not carry the counter around to a value within the capacity. -/
def AddFits (maxSize count : ℕ) (m : Memory D) (phase : Phase) : Prop :=
  phase = .call → m.currentSize + count < 2^32 ∨ maxSize < (m.currentSize + count) % 2^32

/-- What matters of a call for the elements. -/
inductive Stage
  | call
  | reset (oldSize : ℕ)
  | granted (start size : ℕ)

def Phase.stage : Phase → Stage
  | .call => .call
  | .reset oldSize => .reset oldSize
  | .pushIndex oldSize n => .granted oldSize n
  | .writeIndex oldSize n _ => .granted oldSize n
  | .done offset n _ => .granted offset n

namespace Stage

def start : Stage → ℕ
  | call => 0
  | reset oldSize => oldSize
  | granted start _ => start

def size (maxSize : ℕ) : Stage → ℕ
  | call => 0
  | reset oldSize => maxSize - oldSize
  | granted _ size => size

def elements (maxSize : ℕ) (stage : Stage) : Finset ℕ := Finset.Ico stage.start (stage.start + stage.size maxSize)

@[simp] theorem card_elements (maxSize : ℕ) (stage : Stage) : (stage.elements maxSize).card = stage.size maxSize := by
  rw [elements, Nat.card_Ico, Nat.add_sub_cancel_left]

end Stage

section Ranges

variable {ι : Type*} [Fintype ι] [DecidableEq ι] {maxSize currentSize : ℕ} {count : ι → ℕ} {stages : ι → Stage}
  {b : ι} {oldSize : ℕ}

/-- The elements below the counter and the capacity are shared out among the calls. -/
structure Ranges (maxSize : ℕ) (count : ι → ℕ) (currentSize : ℕ) (stages : ι → Stage) : Prop where
  inside : ∀ b, (stages b).elements maxSize ⊆ Finset.range (min currentSize maxSize)
  disjoint : ∀ b b', b ≠ b' → Disjoint ((stages b).elements maxSize) ((stages b').elements maxSize)
  total : ∑ b, (stages b).size maxSize = min currentSize maxSize
  size_le : ∀ b, (stages b).size maxSize ≤ count b
  size_lt : ∀ b, stages b ≠ .call → (stages b).size maxSize < count b → maxSize ≤ currentSize
  overshot : ∀ b oldSize, stages b = .reset oldSize → maxSize ≤ currentSize
  pending : maxSize < currentSize → ∃ b oldSize, stages b = .reset oldSize

omit [DecidableEq ι] in
theorem ranges_empty : Ranges maxSize count 0 fun _ : ι => .call where
  inside _ := Finset.empty_subset _
  disjoint _ _ _ := Finset.disjoint_empty_left _
  total := by simp [Stage.size]
  size_le _ := Nat.zero_le _
  size_lt _ hne := absurd rfl hne
  overshot _ _ h := by cases h
  pending h := absurd h (Nat.not_lt_zero _)

theorem Ranges.update (h : Ranges maxSize count currentSize stages) {currentSize' a : ℕ} {stage : Stage}
    (hexhausted : maxSize ≤ currentSize → maxSize ≤ currentSize')
    (hsize : stage.size maxSize = (stages b).size maxSize + a)
    (htotal : min currentSize' maxSize = min currentSize maxSize + a)
    (helements : ∀ x ∈ stage.elements maxSize, x < min currentSize' maxSize ∧
      (x ∈ (stages b).elements maxSize ∨ min currentSize maxSize ≤ x))
    (hle : stage.size maxSize ≤ count b)
    (hlt : stage ≠ .call → stage.size maxSize < count b → maxSize ≤ currentSize')
    (hovershot : ∀ oldSize, stage = .reset oldSize → maxSize ≤ currentSize')
    (hpending : maxSize < currentSize' → ∃ oldSize, stage = .reset oldSize) :
    Ranges maxSize count currentSize' (Function.update stages b stage) := by
  have hother : ∀ b', b' ≠ b → Disjoint (stage.elements maxSize) ((stages b').elements maxSize) := fun b' hb' => by
    rw [Finset.disjoint_left]
    intro x hx hx'
    rcases (helements x hx).2 with hown | hge
    · exact Finset.disjoint_left.mp (h.disjoint b' b hb') hx' hown
    · have := Finset.mem_range.mp (h.inside b' hx')
      omega
  refine ⟨fun b' => ?_, fun b₁ b₂ hne => ?_, ?_, fun b' => ?_, fun b' => ?_, fun b' oldSize => ?_, fun hlarge => ?_⟩
  · by_cases hb : b' = b
    · subst hb
      rw [Function.update_self]
      exact fun x hx => Finset.mem_range.mpr (helements x hx).1
    · rw [Function.update_of_ne hb]
      exact (h.inside b').trans (Finset.range_subset_range.mpr (by omega))
  · by_cases h₁ : b₁ = b
    · subst h₁
      rw [Function.update_self, Function.update_of_ne hne.symm]
      exact hother b₂ hne.symm
    · rw [Function.update_of_ne h₁]
      by_cases h₂ : b₂ = b
      · subst h₂
        rw [Function.update_self]
        exact (hother b₁ h₁).symm
      · rw [Function.update_of_ne h₂]
        exact h.disjoint b₁ b₂ hne
  · have hsum := sum_update_add (f := fun _ s => Stage.size maxSize s) hsize
    rw [hsum, h.total, htotal]
  · by_cases hb : b' = b
    · subst hb
      rwa [Function.update_self]
    · rw [Function.update_of_ne hb]
      exact h.size_le b'
  · by_cases hb : b' = b
    · subst hb
      rwa [Function.update_self]
    · rw [Function.update_of_ne hb]
      exact fun hne hlt' => hexhausted (h.size_lt b' hne hlt')
  · by_cases hb : b' = b
    · subst hb
      rw [Function.update_self]
      exact hovershot oldSize
    · rw [Function.update_of_ne hb]
      exact fun he => hexhausted (h.overshot b' oldSize he)
  · obtain ⟨oldSize, hstage⟩ := hpending hlarge
    exact ⟨b, oldSize, by rw [Function.update_self, hstage]⟩

theorem Ranges.add (h : Ranges maxSize count currentSize stages) (hb : stages b = .call)
    (hfits : currentSize + count b < 2^32 ∨ maxSize < (currentSize + count b) % 2^32) :
    Ranges maxSize count ((currentSize + count b) % 2^32) (Function.update stages b
      (if maxSize < (currentSize + count b) % 2^32 then .reset currentSize else .granted currentSize (count b))) := by
  have hzero : (stages b).size maxSize = 0 := by rw [hb]; rfl
  by_cases hlt : maxSize < (currentSize + count b) % 2^32
  · rw [if_pos hlt]
    refine h.update (a := maxSize - currentSize) (fun _ => hlt.le) (by rw [hzero, zero_add]; rfl) (by omega) (fun x hx => ?_) ?_
      (fun _ _ => hlt.le) (fun _ _ => hlt.le) fun _ => ⟨_, rfl⟩
    · obtain ⟨h0, h1⟩ := Finset.mem_Ico.mp hx
      simp only [Stage.start, Stage.size] at h0 h1
      exact ⟨by omega, .inr (by omega)⟩
    · simp only [Stage.size]
      omega
  · rw [if_neg hlt]
    have hsum : currentSize + count b < 2^32 := hfits.resolve_right hlt
    rw [Nat.mod_eq_of_lt hsum] at hlt ⊢
    refine h.update (a := count b) (fun hle => by omega) (by rw [hzero, zero_add]; rfl) (by omega) (fun x hx => ?_) le_rfl
      (fun _ hlt' => absurd hlt' (lt_irrefl _)) (fun _ hstage => by cases hstage) fun hlarge => absurd hlarge hlt
    obtain ⟨h0, h1⟩ := Finset.mem_Ico.mp hx
    simp only [Stage.start, Stage.size] at h0 h1
    exact ⟨by omega, .inr (by omega)⟩

/-- Setting the counter back to the capacity changes nothing for the elements. -/
theorem Ranges.exch (h : Ranges maxSize count currentSize stages) (hb : stages b = .reset oldSize) :
    Ranges maxSize count maxSize (Function.update stages b
      (if maxSize ≤ oldSize then .granted 0 0 else .granted oldSize (maxSize - oldSize))) := by
  have hlarge := h.overshot b oldSize hb
  have hle := h.size_le b
  have hsize : (stages b).size maxSize = maxSize - oldSize := by rw [hb]; rfl
  rw [hsize] at hle
  by_cases hold : maxSize ≤ oldSize
  · rw [if_pos hold]
    refine h.update (a := 0) (fun _ => le_rfl) (by rw [hsize]; simp only [Stage.size]; omega) (by omega)
      (fun x hx => ?_) (Nat.zero_le _) (fun _ _ => le_rfl) (fun _ hstage => by cases hstage)
      fun hlt => absurd hlt (lt_irrefl _)
    obtain ⟨h0, h1⟩ := Finset.mem_Ico.mp hx
    simp only [Stage.start, Stage.size] at h0 h1
    omega
  · rw [if_neg hold]
    refine h.update (a := 0) (fun _ => le_rfl) (by rw [hsize]; rfl) (by omega) (fun x hx => ?_) hle
      (fun _ _ => le_rfl) (fun _ hstage => by cases hstage) fun hlt => absurd hlt (lt_irrefl _)
    have hx' : x ∈ (stages b).elements maxSize := by rwa [hb]
    exact ⟨by have := Finset.mem_range.mp (h.inside b hx'); omega, .inl hx'⟩

end Ranges

def ticket : Phase → Option ℕ
  | .writeIndex _ _ tmp => some tmp
  | .done _ _ tmp => tmp
  | _ => none

/-- A call that has written an index entry or is going to. -/
def pushes : Phase → Bool
  | .pushIndex .. => true
  | .writeIndex .. => true
  | .done _ _ tmp => tmp.isSome
  | _ => false

section Calls

variable {ι : Type*} [Fintype ι] [DecidableEq ι] {maxSize : ℕ} {count : ι → ℕ} {superCell : ι → DataSpace D}
  {m : Memory D} {phases : ι → Phase} {b : ι}

/-- The index has one entry for each call that has elements and got so far. -/
structure Indexed (maxSize : ℕ) (superCell : ι → DataSpace D) (m : Memory D) (phases : ι → Phase) : Prop where
  tickets : ∑ b, (if (ticket (phases b)).isSome then 1 else 0) = m.indexSize
  ticket_lt : ∀ b k, ticket (phases b) = some k → k < m.indexSize
  ticket_inj : ∀ b b' k, ticket (phases b) = some k → ticket (phases b') = some k → b = b'
  size_pos : ∀ b, pushes (phases b) = true → 0 < (phases b).stage.size maxSize
  size_zero : ∀ b offset n, phases b = .done offset n none → n = 0
  entry : ∀ b offset n k, phases b = .done offset n (some k) → m.index k = some ⟨superCell b, offset, n⟩

structure Pushing (maxSize : ℕ) (count : ι → ℕ) (superCell : ι → DataSpace D) (s : Memory D × (ι → Phase)) : Prop where
  ranges : Ranges maxSize count s.1.currentSize fun b => (s.2 b).stage
  indexed : Indexed maxSize superCell s.1 s.2

omit [Fintype ι] in
theorem stage_update (phases : ι → Phase) (b : ι) (phase : Phase) :
    (fun b' => (Function.update phases b phase b').stage) =
      Function.update (fun b' => (phases b').stage) b phase.stage :=
  Function.comp_update Phase.stage phases b phase

theorem ticket_le_pushes {phase : Phase} (h : (ticket phase).isSome = true) : pushes phase = true := by
  cases phase <;> simp_all [ticket, pushes]

omit [DecidableEq ι] in
/-- There are no more entries than elements. -/
theorem sum_tickets_le (hsize : ∑ b, (phases b).stage.size maxSize ≤ maxSize)
    (hpos : ∀ b, pushes (phases b) = true → 0 < (phases b).stage.size maxSize) :
    ∑ b, (if (ticket (phases b)).isSome then 1 else 0) ≤ maxSize := by
  refine (Finset.sum_le_sum fun b _ => ?_).trans hsize
  split
  case isTrue hsome => exact hpos b (ticket_le_pushes hsome)
  case isFalse => exact Nat.zero_le _

omit [DecidableEq ι] in
theorem Pushing.sum_size_le (h : Pushing maxSize count superCell (m, phases)) :
    ∑ b, (phases b).stage.size maxSize ≤ maxSize :=
  h.ranges.total.trans_le (min_le_right _ _)

omit [DecidableEq ι] in
theorem Pushing.indexSize_le (h : Pushing maxSize count superCell (m, phases)) : m.indexSize ≤ maxSize :=
  h.indexed.tickets.symm.trans_le (sum_tickets_le h.sum_size_le h.indexed.size_pos)

theorem Indexed.update (h : Indexed maxSize superCell m phases) {phase : Phase} (hold : ticket (phases b) = none)
    (hnew : ticket phase = none) (hpos : pushes phase = true → 0 < phase.stage.size maxSize)
    (hzero : ∀ offset n, phase = .done offset n none → n = 0) {currentSize : ℕ} :
    Indexed maxSize superCell { m with currentSize := currentSize } (Function.update phases b phase) := by
  have hticket : ∀ b', ticket (Function.update phases b phase b') = ticket (phases b') := fun b' => by
    by_cases hb : b' = b
    · subst hb
      rw [Function.update_self, hnew, hold]
    · rw [Function.update_of_ne hb]
  refine ⟨by simpa only [hticket] using h.tickets, by simpa only [hticket] using h.ticket_lt,
    by simpa only [hticket] using h.ticket_inj, fun b' => ?_, fun b' offset n => ?_, fun b' offset n k => ?_⟩
  · by_cases hb : b' = b
    · subst hb
      rwa [Function.update_self]
    · rw [Function.update_of_ne hb]
      exact h.size_pos b'
  · by_cases hb : b' = b
    · subst hb
      rw [Function.update_self]
      exact hzero offset n
    · rw [Function.update_of_ne hb]
      exact h.size_zero b' offset n
  · by_cases hb : b' = b
    · subst hb
      rw [Function.update_self]
      rintro rfl
      cases hnew
    · rw [Function.update_of_ne hb]
      exact h.entry b' offset n k

theorem Pushing.pushIndex (hmax : maxSize < 2^32) (h : Pushing maxSize count superCell (m, phases)) {oldSize n : ℕ}
    (hb : phases b = .pushIndex oldSize n) : Pushing maxSize count superCell
      ({ m with indexSize := (m.indexSize + 1) % 2^32 },
        Function.update phases b (.writeIndex oldSize n m.indexSize)) := by
  set phases' := Function.update phases b (.writeIndex oldSize n m.indexSize) with hphases
  have hstage : ∀ b', (phases' b').stage = (phases b').stage := fun b' => by
    by_cases hb' : b' = b
    · subst hb'
      rw [hphases, Function.update_self, hb]
      rfl
    · rw [hphases, Function.update_of_ne hb']
  have hticket : ∀ b', b' ≠ b → ticket (phases' b') = ticket (phases b') := fun b' hb' => by
    rw [hphases, Function.update_of_ne hb']
  have hself : ticket (phases' b) = some m.indexSize := by
    rw [hphases, Function.update_self]
    rfl
  have hpos : ∀ b', pushes (phases' b') = true → 0 < (phases' b').stage.size maxSize := fun b' hpush => by
    rw [hstage]
    by_cases hb' : b' = b
    · subst hb'
      exact h.indexed.size_pos b' (by dsimp only; rw [hb]; rfl)
    · exact h.indexed.size_pos b' (by rwa [hphases, Function.update_of_ne hb'] at hpush)
  have hsum : ∑ b', (if (ticket (phases' b')).isSome then 1 else 0) = m.indexSize + 1 := by
    have htickets := h.indexed.tickets
    dsimp only at htickets
    rw [hphases, sum_update_add (f := fun _ phase => if (ticket phase).isSome then 1 else 0) (a := 1), htickets]
    rw [hb]
    rfl
  have hle := @sum_tickets_le ι _ maxSize phases' (by simpa only [hstage] using h.sum_size_le) hpos
  have hfits : (m.indexSize + 1) % 2^32 = m.indexSize + 1 := Nat.mod_eq_of_lt (by omega)
  refine ⟨by simpa only [hstage] using h.ranges, ⟨by rw [hfits]; exact hsum, fun b' k hk => ?_,
    fun b₁ b₂ k h₁ h₂ => ?_, hpos, fun b' offset size he => ?_, fun b' offset size k he => ?_⟩⟩
  · dsimp only
    rw [hfits]
    by_cases hb' : b' = b
    · subst hb'
      obtain rfl := Option.some_inj.mp (hself.symm.trans hk)
      exact Nat.lt_succ_self _
    · exact (h.indexed.ticket_lt b' k ((hticket b' hb').symm.trans hk)).trans (Nat.lt_succ_self _)
  · have hnew : ∀ b', b' ≠ b → ticket (phases' b') ≠ some m.indexSize := fun b' hb' he =>
      absurd (h.indexed.ticket_lt b' _ ((hticket b' hb').symm.trans he)) (lt_irrefl _)
    by_cases hb₁ : b₁ = b
    · by_contra hne
      subst hb₁
      rw [hself, Option.some_inj] at h₁
      exact hnew b₂ (Ne.symm hne) (h₁ ▸ h₂)
    · by_cases hb₂ : b₂ = b
      · subst hb₂
        rw [hself, Option.some_inj] at h₂
        exact absurd (h₂ ▸ h₁) (hnew b₁ hb₁)
      · exact h.indexed.ticket_inj b₁ b₂ k ((hticket b₁ hb₁).symm.trans h₁) ((hticket b₂ hb₂).symm.trans h₂)
  · replace he : phases' b' = _ := he
    by_cases hb' : b' = b
    · subst hb'
      rw [hphases, Function.update_self] at he
      cases he
    · rw [hphases, Function.update_of_ne hb'] at he
      exact h.indexed.size_zero b' offset size he
  · replace he : phases' b' = _ := he
    by_cases hb' : b' = b
    · subst hb'
      rw [hphases, Function.update_self] at he
      cases he
    · rw [hphases, Function.update_of_ne hb'] at he
      exact h.indexed.entry b' offset size k he

theorem Pushing.writeIndex (h : Pushing maxSize count superCell (m, phases)) {oldSize n tmp : ℕ}
    (hb : phases b = .writeIndex oldSize n tmp) : Pushing maxSize count superCell
      ({ m with index := Function.update m.index tmp (some ⟨superCell b, oldSize, n⟩) },
        Function.update phases b (.done oldSize n (some tmp))) := by
  set phases' := Function.update phases b (.done oldSize n (some tmp)) with hphases
  have hself : ticket (phases b) = some tmp := by
    rw [hb]
    rfl
  have hsame : ∀ b', (phases' b').stage = (phases b').stage ∧ ticket (phases' b') = ticket (phases b') ∧
      pushes (phases' b') = pushes (phases b') := fun b' => by
    by_cases hb' : b' = b
    · subst hb'
      rw [hphases, Function.update_self, hb]
      exact ⟨rfl, rfl, rfl⟩
    · rw [hphases, Function.update_of_ne hb']
      exact ⟨rfl, rfl, rfl⟩
  have hstage := fun b' => (hsame b').1
  have hticket := fun b' => (hsame b').2.1
  refine ⟨by simpa only [hstage] using h.ranges, ⟨by simpa only [hticket] using h.indexed.tickets,
    by simpa only [hticket] using h.indexed.ticket_lt, by simpa only [hticket] using h.indexed.ticket_inj,
    fun b' hpush => ?_, fun b' offset size he => ?_, fun b' offset size k he => ?_⟩⟩
  · rw [hstage]
    exact h.indexed.size_pos b' ((hsame b').2.2 ▸ hpush)
  · replace he : phases' b' = _ := he
    by_cases hb' : b' = b
    · subst hb'
      rw [hphases, Function.update_self] at he
      cases he
    · rw [hphases, Function.update_of_ne hb'] at he
      exact h.indexed.size_zero b' offset size he
  · replace he : phases' b' = _ := he
    by_cases hb' : b' = b
    · subst hb'
      rw [hphases, Function.update_self] at he
      cases he
      exact Function.update_self ..
    · rw [hphases, Function.update_of_ne hb'] at he
      have hne : k ≠ tmp := fun hk => hb' (h.indexed.ticket_inj b' b k (by dsimp only; rw [he]; rfl) (hk ▸ hself))
      exact (Function.update_of_ne hne _ _).trans (h.indexed.entry b' offset size k he)

omit [DecidableEq ι] in
/-- The counter is past the capacity only while a call is about to set it back. -/
theorem Pushing.currentSize_le (h : Pushing maxSize count superCell (m, phases))
    (hreset : ∀ b oldSize, phases b ≠ .reset oldSize) : m.currentSize ≤ maxSize := by
  by_contra hlt
  obtain ⟨b, oldSize, hb⟩ := h.ranges.pending (not_le.mp hlt)
  refine hreset b oldSize ?_
  dsimp only at hb
  cases hphase : phases b with
  | reset oldSize' =>
    rw [hphase] at hb
    cases hb
    rfl
  | _ =>
    rw [hphase] at hb
    cases hb

omit [DecidableEq ι] in
/-- The tickets are the entries of the index. -/
theorem Pushing.image_ticket (h : Pushing maxSize count superCell (m, phases)) :
    (Finset.univ.filter fun b => (ticket (phases b)).isSome = true).image (fun b => (ticket (phases b)).getD 0) =
        Finset.range m.indexSize ∧
      Set.InjOn (fun b => (ticket (phases b)).getD 0)
        (Finset.univ.filter fun b => (ticket (phases b)).isSome = true : Finset ι) := by
  have hsome : ∀ b ∈ Finset.univ.filter (fun b => (ticket (phases b)).isSome = true),
      ticket (phases b) = some ((ticket (phases b)).getD 0) := fun b hb => by
    obtain ⟨j, hj⟩ := Option.isSome_iff_exists.mp (Finset.mem_filter.mp hb).2
    rw [hj, Option.getD_some]
  have hinj : Set.InjOn (fun b => (ticket (phases b)).getD 0)
      (Finset.univ.filter fun b => (ticket (phases b)).isSome = true : Finset ι) := fun b hb b' hb' he =>
    h.indexed.ticket_inj b b' _ (hsome b hb) ((hsome b' hb').trans (congrArg some he.symm))
  refine ⟨Finset.eq_of_subset_of_card_le (fun j hj => ?_) ?_, hinj⟩
  · obtain ⟨b, hb, rfl⟩ := Finset.mem_image.mp hj
    exact Finset.mem_range.mpr (h.indexed.ticket_lt b _ (hsome b hb))
  · rw [Finset.card_range, Finset.card_image_of_injOn hinj, Finset.card_filter]
    exact h.indexed.tickets.symm.le

omit [DecidableEq ι] in
theorem Pushing.exists_ticket (h : Pushing maxSize count superCell (m, phases)) {k : ℕ} (hk : k < m.indexSize) :
    ∃ b, ticket (phases b) = some k := by
  obtain ⟨b, hb, rfl⟩ := Finset.mem_image.mp (h.image_ticket.1 ▸ Finset.mem_range.mpr hk)
  obtain ⟨j, hj⟩ := Option.isSome_iff_exists.mp (Finset.mem_filter.mp hb).2
  exact ⟨b, by rw [hj, Option.getD_some]⟩

/-- A step of a call whose addition fits. -/
def FittingPushN (maxSize : ℕ) (count : ι → ℕ) (superCell : ι → DataSpace D) (b : ι) (m : Memory D) (phase : Phase)
    (m' : Memory D) (phase' : Phase) : Prop :=
  AddFits maxSize (count b) m phase ∧ PushN maxSize (count b) (superCell b) m phase m' phase'

theorem pushing_preserved (hmax : maxSize < 2^32) (hcount : ∀ b, 0 < count b) :
    Preserved (FittingPushN maxSize count superCell) (Pushing maxSize count superCell) := by
  rintro b m m' phases phase h ⟨hfits, hstep⟩
  generalize hb : phases b = before at hstep hfits
  cases hstep with
  | add =>
    have hranges := h.ranges.add (b := b) (by dsimp only; rw [hb]; rfl) (hfits rfl)
    have hstage : (if maxSize < (m.currentSize + count b) % 2^32 then Phase.reset m.currentSize
        else Phase.pushIndex m.currentSize (count b)).stage =
        if maxSize < (m.currentSize + count b) % 2^32 then .reset m.currentSize
        else .granted m.currentSize (count b) := by split <;> rfl
    refine ⟨?_, h.indexed.update (by dsimp only; rw [hb]; rfl) (by split <;> rfl) (fun hpush => ?_) ?_⟩
    · dsimp only
      rw [stage_update, hstage]
      exact hranges
    · rw [hstage]
      split at hpush
      case isTrue => cases hpush
      case isFalse hlt =>
        rw [if_neg hlt]
        exact hcount b
    · intro offset n
      split <;> rintro ⟨⟩
  | @exch oldSize =>
    have hranges := @Ranges.exch ι _ _ _ _ _ _ b oldSize h.ranges (by dsimp only; rw [hb]; rfl)
    have hstage : (if maxSize ≤ oldSize then Phase.done 0 0 none
        else Phase.pushIndex oldSize (maxSize - oldSize)).stage =
        if maxSize ≤ oldSize then .granted 0 0 else .granted oldSize (maxSize - oldSize) := by split <;> rfl
    refine ⟨?_, h.indexed.update (by dsimp only; rw [hb]; rfl) (by split <;> rfl) (fun hpush => ?_) ?_⟩
    · dsimp only
      rw [stage_update, hstage]
      exact hranges
    · rw [hstage]
      split at hpush
      case isTrue => cases hpush
      case isFalse hlt =>
        rw [if_neg hlt]
        simp only [Stage.size]
        omega
    · intro offset n
      split
      case isTrue =>
        rintro ⟨⟩
        rfl
      case isFalse => rintro ⟨⟩
  | pushIndex => exact h.pushIndex hmax hb
  | writeIndex => exact h.writeIndex hb

omit [DecidableEq ι] in
theorem pushing_start {index : ℕ → Option (ExchangeMemoryIndex D)} :
    Pushing maxSize count superCell (⟨0, 0, index⟩, fun _ : ι => .call) where
  ranges := ranges_empty
  indexed := by
    refine ⟨Finset.sum_eq_zero fun _ _ => rfl, ?_, ?_, ?_, ?_, ?_⟩
    · rintro b k ⟨⟩
    · rintro b b' k ⟨⟩
    · rintro b ⟨⟩
    · rintro b offset n ⟨⟩
    · rintro b offset n k ⟨⟩

/-- What a call has added to the counter until it sets it back. -/
def overshoot (n : ℕ) : Phase → ℕ
  | .reset _ => n
  | _ => 0

/-- The counter is past the capacity at most by what such calls have added. -/
theorem PushN.currentSize_le {n rest : ℕ} {c : DataSpace D} {m m' : Memory D} {phase phase' : Phase}
    (h : PushN maxSize n c m phase m' phase') (hle : m.currentSize ≤ maxSize + (rest + overshoot n phase)) :
    m'.currentSize ≤ maxSize + (rest + overshoot n phase') := by
  cases h with
  | add =>
    have hmod := Nat.mod_le (m.currentSize + n) (2^32)
    simp only [overshoot, add_zero] at hle
    split
    · simp only [overshoot]
      omega
    · exact le_trans (by dsimp only; omega) (Nat.le_add_right maxSize _)
  | exch => exact Nat.le_add_right maxSize _
  | pushIndex => exact hle
  | writeIndex => exact hle

def Quiet (phase : Phase) : Prop := phase = .call ∨ ∃ offset n tmp, phase = .done offset n tmp

omit [DecidableEq ι] in
/-- The entries of the index are those of the calls with elements. -/
theorem Pushing.sum_index {A : Type*} [AddCommMonoid A] (h : Pushing maxSize count superCell (m, phases))
    (hquiet : ∀ b, Quiet (phases b)) {f : ExchangeMemoryIndex D → A} (hf : ∀ e, e.count = 0 → f e = 0) :
    ∑ k ∈ Finset.range m.indexSize, (m.index k).elim 0 f =
      ∑ b, f ⟨superCell b, (phases b).stage.start, (phases b).stage.size maxSize⟩ := by
  rw [← h.image_ticket.1, Finset.sum_image h.image_ticket.2, Finset.sum_filter]
  refine Finset.sum_congr rfl fun b _ => ?_
  rcases hquiet b with hb | ⟨offset, n, tmp, hb⟩
  · rw [hb]
    exact (hf _ rfl).symm
  · rw [hb]
    cases tmp with
    | none =>
      have hn : n = 0 := h.indexed.size_zero b offset n hb
      exact (hf _ hn).symm
    | some k =>
      have hentry : m.index k = some ⟨superCell b, offset, n⟩ := h.indexed.entry b offset n k hb
      simp only [ticket, Option.isSome_some, if_true, Option.getD_some, hentry]
      rfl

omit [DecidableEq ι] in
theorem Pushing.exists_entry (h : Pushing maxSize count superCell (m, phases)) (hquiet : ∀ b, Quiet (phases b)) {k : ℕ}
    (hk : k < m.indexSize) : ∃ b, m.index k =
        some ⟨superCell b, (phases b).stage.start, (phases b).stage.size maxSize⟩ ∧
      (phases b).stage.size maxSize ≤ count b ∧
      (phases b).stage.start + (phases b).stage.size maxSize ≤ m.currentSize := by
  obtain ⟨b, hb⟩ := h.exists_ticket hk
  have hpos : 0 < (phases b).stage.size maxSize :=
    h.indexed.size_pos b (ticket_le_pushes (Option.isSome_iff_exists.mpr ⟨k, hb⟩))
  have hmem : (phases b).stage.start + (phases b).stage.size maxSize - 1 ∈ (phases b).stage.elements maxSize :=
    Finset.mem_Ico.mpr ⟨by omega, by omega⟩
  have hlast : (phases b).stage.start + (phases b).stage.size maxSize - 1 < min m.currentSize maxSize :=
    Finset.mem_range.mp (h.ranges.inside b hmem)
  refine ⟨b, ?_, h.ranges.size_le b, by omega⟩
  rcases hquiet b with hcall | ⟨offset, n, tmp, hcall⟩
  · rw [hcall] at hb
    cases hb
  · rw [hcall] at hb
    rw [h.indexed.entry b offset n k (hcall.trans (congrArg _ hb)), hcall]
    rfl

omit [DecidableEq ι] in
/-- When no call is under way, the counter is the number of elements, and a call that got fewer than it asked for
means that the stack is full. -/
theorem Pushing.currentSize_of_quiet (h : Pushing maxSize count superCell (m, phases))
    (hquiet : ∀ b, Quiet (phases b)) : m.currentSize ≤ maxSize ∧ ∑ b, (phases b).stage.size maxSize = m.currentSize ∧
      ∀ b offset n tmp, phases b = .done offset n tmp → n < count b → m.currentSize = maxSize := by
  have hle := h.currentSize_le fun b oldSize hb => by
    rcases hquiet b with hb' | ⟨offset, n, tmp, hb'⟩ <;> rw [hb'] at hb <;> cases hb
  refine ⟨hle, h.ranges.total.trans (min_eq_left hle), fun b offset n tmp hb hlt => le_antisymm hle ?_⟩
  have hstage : (phases b).stage = .granted offset n := by rw [hb]; rfl
  refine h.ranges.size_lt b (fun he => ?_) ?_
  · dsimp only at he
    rw [hstage] at he
    cases he
  · dsimp only
    rwa [hstage]

/-- Every call has returned: the boxes share out the elements up to the capacity, and the index has their entries. -/
structure Pushed (maxSize : ℕ) (count : ι → ℕ) (superCell : ι → DataSpace D) (m : Memory D) (offset size : ι → ℕ) :
    Prop where
  disjoint : ∀ b b', b ≠ b' →
    Disjoint (Finset.Ico (offset b) (offset b + size b)) (Finset.Ico (offset b') (offset b' + size b'))
  inside : ∀ b, Finset.Ico (offset b) (offset b + size b) ⊆ Finset.range maxSize
  covers : (Finset.univ.biUnion fun b => Finset.Ico (offset b) (offset b + size b)) =
    Finset.range (min (∑ b, count b) maxSize)
  size_le : ∀ b, size b ≤ count b
  fewer : ∀ b, size b < count b → maxSize < ∑ b, count b
  currentSize : m.currentSize = min (∑ b, count b) maxSize
  entry : ∀ b, 0 < size b → ∃! k, k < m.indexSize ∧ m.index k = some ⟨superCell b, offset b, size b⟩
  index : ∀ k < m.indexSize, ∃ b, 0 < size b ∧ m.index k = some ⟨superCell b, offset b, size b⟩
  indexSize_le : m.indexSize ≤ maxSize

def returned (offset size : ι → ℕ) (tmp : ι → Option ℕ) (b : ι) : Phase := .done (offset b) (size b) (tmp b)

section Returned

variable {offset size : ι → ℕ} {tmp : ι → Option ℕ}

omit [DecidableEq ι] in
theorem Pushing.fewer (h : Pushing maxSize count superCell (m, returned offset size tmp)) {b : ι}
    (hb : size b < count b) : m.currentSize = maxSize ∧ maxSize < ∑ b, count b := by
  have hcurrent : m.currentSize = maxSize :=
    le_antisymm (h.currentSize_le fun _ _ he => by cases he) (h.ranges.size_lt b (fun he => by cases he) hb)
  have hlt : ∑ b, size b < ∑ b, count b :=
    Finset.sum_lt_sum (fun b _ => h.ranges.size_le b) ⟨b, Finset.mem_univ b, hb⟩
  have htotal : ∑ b, size b = min m.currentSize maxSize := h.ranges.total
  exact ⟨hcurrent, by omega⟩

omit [DecidableEq ι] in
theorem Pushing.currentSize_eq (h : Pushing maxSize count superCell (m, returned offset size tmp)) :
    m.currentSize = min (∑ b, count b) maxSize := by
  by_cases hfewer : ∃ b, size b < count b
  · obtain ⟨b, hb⟩ := hfewer
    obtain ⟨hcurrent, hlt⟩ := h.fewer hb
    omega
  · push Not at hfewer
    have hsum : ∑ b, size b = ∑ b, count b :=
      Finset.sum_congr rfl fun b _ => le_antisymm (h.ranges.size_le b) (hfewer b)
    have htotal : ∑ b, size b = min m.currentSize maxSize := h.ranges.total
    have := h.currentSize_le fun _ _ he => by cases he
    omega

omit [DecidableEq ι] in
theorem Pushing.size_pos_iff (h : Pushing maxSize count superCell (m, returned offset size tmp)) {b : ι} :
    0 < size b ↔ ∃ k, tmp b = some k := by
  cases htmp : tmp b with
  | none =>
    have hzero : size b = 0 := h.indexed.size_zero b (offset b) (size b) (by dsimp only [returned]; rw [htmp])
    simp [hzero]
  | some k =>
    have hpos : 0 < size b := h.indexed.size_pos b (by dsimp only [returned]; rw [htmp]; rfl)
    simp [hpos]

omit [DecidableEq ι] in
theorem Pushing.entry (h : Pushing maxSize count superCell (m, returned offset size tmp)) {b : ι} {k : ℕ}
    (hk : tmp b = some k) : k < m.indexSize ∧ m.index k = some ⟨superCell b, offset b, size b⟩ :=
  ⟨h.indexed.ticket_lt b k (by dsimp only [returned]; rw [← hk]; rfl),
    h.indexed.entry b (offset b) (size b) k (by dsimp only [returned]; rw [hk])⟩

theorem Pushing.pushed (h : Pushing maxSize count superCell (m, returned offset size tmp)) :
    Pushed maxSize count superCell m offset size where
  disjoint := h.ranges.disjoint
  inside b := (h.ranges.inside b).trans (Finset.range_subset_range.mpr (min_le_right _ _))
  covers := by
    have hcurrent := h.currentSize_eq
    refine Finset.eq_of_subset_of_card_le (fun x hx => ?_) ?_
    · obtain ⟨b, -, hb⟩ := Finset.mem_biUnion.mp hx
      have hx' := Finset.mem_range.mp (h.ranges.inside b hb)
      dsimp only at hx'
      exact Finset.mem_range.mpr (by omega)
    · have hdisjoint : ∀ b b', b ≠ b' →
          Disjoint (Finset.Ico (offset b) (offset b + size b)) (Finset.Ico (offset b') (offset b' + size b')) :=
        h.ranges.disjoint
      rw [Finset.card_biUnion fun b _ b' _ hne => hdisjoint b b' hne, Finset.card_range]
      have htotal : ∑ b, size b = min m.currentSize maxSize := h.ranges.total
      have hcard : ∀ b, (Finset.Ico (offset b) (offset b + size b)).card = size b := fun b => by
        rw [Nat.card_Ico, Nat.add_sub_cancel_left]
      simp only [hcard]
      omega
  size_le := h.ranges.size_le
  fewer _ hb := (h.fewer hb).2
  currentSize := h.currentSize_eq
  entry b hb := by
    obtain ⟨k, hk⟩ := h.size_pos_iff.mp hb
    refine ⟨k, h.entry hk, fun k' hk' => ?_⟩
    obtain ⟨b', hb'⟩ := h.exists_ticket hk'.1
    have heq := (h.entry hb').2.symm.trans hk'.2
    rw [Option.some_inj, ExchangeMemoryIndex.mk.injEq] at heq
    have hsame : b' = b := by
      by_contra hne
      have hmem : offset b ∈ Finset.Ico (offset b) (offset b + size b) := Finset.mem_Ico.mpr ⟨le_rfl, by omega⟩
      have hmem' : offset b ∈ Finset.Ico (offset b') (offset b' + size b') :=
        Finset.mem_Ico.mpr ⟨by omega, by omega⟩
      exact Finset.disjoint_left.mp (h.ranges.disjoint b' b hne) hmem' hmem
    subst hsame
    exact Option.some_inj.mp (hb'.symm.trans hk)
  index k hk := by
    obtain ⟨b, hb⟩ := h.exists_ticket hk
    exact ⟨b, h.size_pos_iff.mpr ⟨k, hb⟩, (h.entry hb).2⟩
  indexSize_le := h.indexSize_le

end Returned

def Calls (maxSize : ℕ) (count : ι → ℕ) (superCell : ι → DataSpace D) :
    Memory D × (ι → Phase) → Memory D × (ι → Phase) → Prop :=
  Run fun b => PushN maxSize (count b) (superCell b)

def FittingCalls (maxSize : ℕ) (count : ι → ℕ) (superCell : ι → DataSpace D) :
    Memory D × (ι → Phase) → Memory D × (ι → Phase) → Prop :=
  Run (FittingPushN maxSize count superCell)

theorem fittingCalls_pushing (hmax : maxSize < 2^32) (hcount : ∀ b, 0 < count b) {s : Memory D × (ι → Phase)}
    (h : FittingCalls maxSize count superCell (empty D, fun _ => .call) s) : Pushing maxSize count superCell s :=
  Run.invariant (pushing_preserved hmax hcount) h pushing_start

def asked (n : ℕ) : Phase → ℕ
  | .call => 0
  | _ => n

/-- The counter is at most the sum of what was added. -/
theorem asked_preserved (hmax : maxSize < 2^32) (hcount : ∀ b, 0 < count b) :
    Preserved (FittingPushN maxSize count superCell) fun s => Pushing maxSize count superCell s ∧
      s.1.currentSize ≤ ∑ b, asked (count b) (s.2 b) := by
  rintro b m m' phases phase ⟨h, hle⟩ hstep
  refine ⟨pushing_preserved hmax hcount b m m' phases phase h hstep, ?_⟩
  have hstep' := hstep.2
  dsimp only at hle ⊢
  have hself : ∀ {before : Phase}, phases b = before → asked (count b) phase = asked (count b) before →
      ∑ b', asked (count b') (Function.update phases b phase b') = ∑ b', asked (count b') (phases b') := by
    intro before hb he
    rw [sum_update_add (f := fun b' phase => asked (count b') phase) (a := 0), add_zero]
    rw [hb, he, add_zero]
  generalize hb : phases b = before at hstep'
  cases hstep' with
  | add =>
    rw [sum_update_add (f := fun b' phase => asked (count b') phase) (a := count b)]
    · have := Nat.mod_le (m.currentSize + count b) (2^32)
      dsimp only
      omega
    · rw [hb]
      split <;> simp [asked]
  | @exch oldSize =>
    rw [hself hb (by split <;> rfl)]
    exact (h.ranges.overshot b oldSize (by dsimp only; rw [hb]; rfl)).trans hle
  | pushIndex => rwa [hself hb rfl]
  | writeIndex => rwa [hself hb rfl]

/-- Calls that do not ask for more than the counter can count. -/
theorem fittingCalls_of_sum (hmax : maxSize < 2^32) (hcount : ∀ b, 0 < count b) (hsum : ∑ b, count b < 2^32)
    {s : Memory D × (ι → Phase)} (h : Calls maxSize count superCell (empty D, fun _ => .call) s) :
    FittingCalls maxSize count superCell (empty D, fun _ => .call) s := by
  induction h with
  | refl => exact .refl
  | tail _ hstep ih =>
    cases hstep with
    | @mk b m m' phases phase hpush =>
      refine ih.tail (.mk ⟨fun hcall => .inl ?_, hpush⟩)
      obtain ⟨-, hle⟩ := Run.invariant (asked_preserved hmax hcount) ih
        ⟨pushing_start, Nat.zero_le _⟩
      dsimp only at hle
      have hasked : ∑ b', asked (count b') (phases b') + count b ≤ ∑ b', count b' := by
        rw [← Finset.add_sum_erase _ count (Finset.mem_univ b),
          ← Finset.add_sum_erase _ (fun b' => asked (count b') (phases b')) (Finset.mem_univ b), hcall]
        have hrest : ∑ b' ∈ Finset.univ.erase b, asked (count b') (phases b') ≤ ∑ b' ∈ Finset.univ.erase b, count b' :=
          Finset.sum_le_sum fun b' _ => by cases phases b' <;> simp [asked]
        have hzero : asked (count b) .call = 0 := rfl
        omega
      omega

def rank : Phase → ℕ
  | .call => 4
  | .reset _ => 3
  | .pushIndex .. => 2
  | .writeIndex .. => 1
  | .done .. => 0

omit [Fintype ι] [DecidableEq ι] in
theorem PushN.rank_lt {n : ℕ} {c : DataSpace D} {m m' : Memory D} {phase phase' : Phase}
    (h : PushN maxSize n c m phase m' phase') : rank phase' < rank phase := by
  cases h with
  | add => split <;> simp [rank]
  | exch => split <;> simp [rank]
  | pushIndex => simp [rank]
  | writeIndex => simp [rank]

omit [Fintype ι] [DecidableEq ι] in
theorem PushN.exists_step {n : ℕ} {c : DataSpace D} (m : Memory D) {phase : Phase} (h : rank phase ≠ 0) :
    ∃ m' phase', PushN maxSize n c m phase m' phase' := by
  cases phase with
  | call => exact ⟨_, _, .add⟩
  | reset oldSize => exact ⟨_, _, .exch⟩
  | pushIndex oldSize n => exact ⟨_, _, .pushIndex⟩
  | writeIndex oldSize n tmp => exact ⟨_, _, .writeIndex⟩
  | done offset size tmp => exact absurd rfl h

omit [Fintype ι] [DecidableEq ι] in
theorem calls_progress : Progress (fun b => PushN maxSize (count b) (superCell b)) (fun _ => rank)
    fun _ : Memory D × (ι → Phase) => True := fun m _ _ b hb => by
  obtain ⟨m', phase', hstep⟩ := PushN.exists_step m hb
  exact ⟨m', phase', hstep, hstep.rank_lt⟩

theorem exists_returned (s : Memory D × (ι → Phase)) :
    ∃ m offset size tmp, Calls maxSize count superCell s (m, returned offset size tmp) := by
  obtain ⟨⟨m, phases⟩, hrun, hend⟩ := exists_complete (fun _ _ _ _ _ _ _ => trivial)
    (@calls_progress D ι maxSize count superCell) (s := s) trivial
  have hdone : ∀ b, ∃ offset size tmp, phases b = .done offset size tmp := fun b => by
    have hb := hend b
    cases hphase : phases b with
    | done offset size tmp => exact ⟨offset, size, tmp, rfl⟩
    | _ => simp [hphase, rank] at hb
  choose offset size tmp hdone using hdone
  exact ⟨m, offset, size, tmp, by rwa [funext hdone] at hrun⟩

omit [Fintype ι] in
/-- Elements that were granted stay granted. -/
theorem granted_preserved (b : ι) (start n : ℕ) : Preserved (fun b => PushN maxSize (count b) (superCell b))
    fun s : Memory D × (ι → Phase) => (s.2 b).stage = .granted start n := by
  rintro b' m m' phases phase h hstep
  dsimp only at h ⊢
  by_cases hb : b = b'
  · subst hb
    rw [Function.update_self, ← h]
    generalize phases b = before at h hstep
    cases hstep with
    | add => cases h
    | exch => cases h
    | pushIndex => rfl
    | writeIndex => rfl
  · rwa [Function.update_of_ne hb]

/-- An addition that does not fit grants elements behind the capacity. -/
theorem not_pushed_of_not_fits (hmax : maxSize < 2^32) (hcount : 0 < count b) {m' m'' : Memory D} {phase : Phase}
    {offset size : ι → ℕ} {tmp : ι → Option ℕ} (hstep : PushN maxSize (count b) (superCell b) m (phases b) m' phase)
    (hfits : ¬ AddFits maxSize (count b) m (phases b))
    (hrun : Calls maxSize count superCell (m', Function.update phases b phase) (m'', returned offset size tmp)) :
    ¬ Pushed maxSize count superCell m'' offset size := by
  intro hpushed
  simp only [AddFits, Classical.not_imp, not_or, not_lt] at hfits
  obtain ⟨hcall, hwrap, hle⟩ := hfits
  rw [hcall] at hstep
  cases hstep with
  | add =>
    have hgranted := Run.invariant (granted_preserved b m.currentSize (count b)) hrun (by
      dsimp only
      rw [Function.update_self, if_neg (not_lt.mpr hle)]
      rfl)
    obtain ⟨hoffset, hsize⟩ : offset b = m.currentSize ∧ size b = count b := by
      simpa [returned, Phase.stage] using hgranted
    have hmem : m.currentSize + count b - 1 ∈ Finset.Ico (offset b) (offset b + size b) := by
      rw [hoffset, hsize, Finset.mem_Ico]
      omega
    have := Finset.mem_range.mp (hpushed.inside b hmem)
    omega

/-- Concurrent calls share out the stack exactly when no addition carries the counter around into the capacity, which
cannot happen as long as the sum of the requests fits the counter. The offset of a returned box is signed, so that the
capacity is at most `2^31`. -/
theorem pushN_spec (hmax : maxSize ≤ 2^31) (hcount : ∀ b, 0 < count b) :
    (∀ m phases, FittingCalls maxSize count superCell (empty D, fun _ => .call) (m, phases) →
      m.indexSize ≤ maxSize ∧ ∀ offset size tmp, phases = returned offset size tmp →
        Pushed maxSize count superCell m offset size) ∧
    (∀ m phases b m' phase m'' offset size tmp, Calls maxSize count superCell (empty D, fun _ => .call) (m, phases) →
      PushN maxSize (count b) (superCell b) m (phases b) m' phase → ¬ AddFits maxSize (count b) m (phases b) →
      Calls maxSize count superCell (m', Function.update phases b phase) (m'', returned offset size tmp) →
      ¬ Pushed maxSize count superCell m'' offset size) ∧
    (∑ b, count b < 2^32 → ∀ s, Calls maxSize count superCell (empty D, fun _ => .call) s →
      FittingCalls maxSize count superCell (empty D, fun _ => .call) s) := by
  have hlt : maxSize < 2^32 := hmax.trans_lt (by norm_num)
  refine ⟨fun m phases h => ?_, fun m phases b m' phase m'' offset size tmp _ hstep hfits hrun => ?_,
    fun hsum s h => fittingCalls_of_sum hlt hcount hsum h⟩
  · have hpushing := fittingCalls_pushing hlt hcount h
    refine ⟨hpushing.indexSize_le, ?_⟩
    rintro offset size tmp rfl
    exact hpushing.pushed
  · exact not_pushed_of_not_fits hlt (hcount b) hstep hfits hrun

end Calls

theorem pushN_spec_two : ∃ m : Memory 1, ∃ offset size : Fin 2 → ℕ, Pushed 5 ![3, 4] 0 m offset size := by
  obtain ⟨hspec, -, hfits⟩ := @pushN_spec 1 (Fin 2) _ _ 5 ![3, 4] 0 (by norm_num) (by decide)
  obtain ⟨m, offset, size, tmp, h⟩ := @exists_returned 1 (Fin 2) _ _ 5 ![3, 4] 0 (empty 1, fun _ => .call)
  exact ⟨m, offset, size, (hspec m _ (hfits (by decide) _ h)).2 offset size tmp rfl⟩

section Wrap

variable {n c maxSize : ℕ} {superCell : Fin n → DataSpace D}

/-- Calls can add one after the other before any of them goes on. -/
theorem exists_adds (k : ℕ) (hk : k ≤ n) : ∃ phases, Calls maxSize (fun _ : Fin n => c) superCell
    (empty D, fun _ => .call) (⟨k * c % 2^32, 0, fun _ => none⟩, phases) ∧ ∀ b : Fin n, k ≤ b → phases b = .call := by
  induction k with
  | zero => exact ⟨fun _ => .call, by rw [Nat.zero_mul, Nat.zero_mod]; exact .refl, fun _ _ => rfl⟩
  | succ k ih =>
    obtain ⟨phases, hrun, hcall⟩ := ih (Nat.le_of_succ_le hk)
    have hadd := @PushN.add D maxSize c (superCell ⟨k, hk⟩) ⟨k * c % 2^32, 0, fun _ => none⟩
    rw [← hcall ⟨k, hk⟩ le_rfl] at hadd
    have hnext := Relation.ReflTransGen.tail hrun (.mk hadd)
    dsimp only at hnext
    rw [Nat.mod_add_mod, ← Nat.succ_mul] at hnext
    refine ⟨_, hnext, fun b hb => ?_⟩
    rw [Function.update_of_ne (by rintro rfl; exact absurd hb (Nat.not_succ_le_self k))]
    exact hcall b (Nat.le_of_succ_le hb)

/-- Calls that together ask for 2^32 elements can be granted too many. -/
theorem exists_not_pushed (hmax : maxSize < 2^32) (hc : 0 < c) (hn : n * c = 2^32) :
    ∃ m offset size tmp, Calls maxSize (fun _ : Fin n => c) superCell (empty D, fun _ => .call)
      (m, returned offset size tmp) ∧ ¬ Pushed maxSize (fun _ => c) superCell m offset size := by
  obtain ⟨n, rfl⟩ : ∃ k, n = k + 1 := ⟨n - 1, by
    rcases n with - | n
    · norm_num at hn
    · rfl⟩
  obtain ⟨phases, hrun, hcall⟩ := @exists_adds D (n + 1) c maxSize superCell n (Nat.le_succ n)
  rw [Nat.succ_mul] at hn
  have hmod : n * c % 2^32 = n * c := Nat.mod_eq_of_lt (by omega)
  rw [hmod] at hrun
  have hlast := hcall (Fin.last n) (by simp)
  have hadd := @PushN.add D maxSize c (superCell (Fin.last n)) ⟨n * c, 0, fun _ => none⟩
  rw [← hlast] at hadd
  have hfits : ¬ AddFits maxSize c (⟨n * c, 0, fun _ => none⟩ : Memory D) (phases (Fin.last n)) := fun h => by
    have := h hlast
    dsimp only at this
    rw [hn, Nat.mod_self] at this
    omega
  obtain ⟨m, offset, size, tmp, hend⟩ := @exists_returned D _ _ _ maxSize (fun _ => c) superCell
    (_, Function.update phases (Fin.last n) _)
  exact ⟨m, offset, size, tmp, Relation.ReflTransGen.trans (hrun.tail (.mk hadd)) hend,
    not_pushed_of_not_fits hmax hc hadd hfits hend⟩

/-- 16777216 full frames and a stack for 1000 particles. -/
theorem frames_not_pushed : ¬ ∀ (m : Memory 2) (offset size : Fin 16777216 → ℕ) (tmp : Fin 16777216 → Option ℕ),
    Calls 1000 (fun _ => 256) 0 (empty 2, fun _ => .call) (m, returned offset size tmp) →
      Pushed 1000 (fun _ => 256) 0 m offset size := fun h => by
  obtain ⟨m, offset, size, tmp, hrun, hnot⟩ := @exists_not_pushed 2 16777216 256 1000 0 (by norm_num) (by norm_num)
    (by norm_num)
  exact hnot (h m offset size tmp hrun)

end Wrap

end PIConGPU.ExchangePush
