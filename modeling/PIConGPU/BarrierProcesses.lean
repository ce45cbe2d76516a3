import Mathlib

/-!
# Processes that wait for each other at barriers

Every process executes its own list of actions on its own memory. Between the actions of different processes every order
is possible, but nobody passes a barrier before all have reached it. What a process has executed is then known up to a
barrier as soon as any other process is past it.
-/
namespace PIConGPU.BarrierProcesses

/-- What a process does next: an action of its own, or waiting for all others. -/
inductive Event (A : Type*)
  | barrier
  | act (a : A)
deriving DecidableEq

/-- The memory of a process, and what is left of its list. -/
structure Process (A X : Type*) where
  mem : X
  rest : List (Event A)

variable {R A X : Type*}

section Steps

variable [DecidableEq R] (execute : R → A → X → X)

/-- The steps of all processes together. A barrier is passed when the last process enters it. -/
inductive Step : (R → Process A X) → (R → Process A X) → Prop
  | act {s : R → Process A X} {r : R} {a : A} {rest : List (Event A)} (h : (s r).rest = .act a :: rest) :
      Step s (Function.update s r ⟨execute r a (s r).mem, rest⟩)
  | barrier {s : R → Process A X} {rest : R → List (Event A)} (h : ∀ r, (s r).rest = .barrier :: rest r) :
      Step s fun r => ⟨(s r).mem, rest r⟩

abbrev Run : (R → Process A X) → (R → Process A X) → Prop := Relation.ReflTransGen (Step execute)

end Steps

section Prefixes

def barriers (l : List (Event A)) : ℕ := l.countP fun e => e matches .barrier

@[simp] theorem barriers_nil : barriers ([] : List (Event A)) = 0 := rfl

@[simp] theorem barriers_barrier (l : List (Event A)) : barriers (.barrier :: l) = barriers l + 1 := by
  simp [barriers]

@[simp] theorem barriers_act (a : A) (l : List (Event A)) : barriers (.act a :: l) = barriers l := by
  simp [barriers]

@[simp] theorem barriers_append (l l' : List (Event A)) : barriers (l ++ l') = barriers l + barriers l' :=
  List.countP_append

theorem barriers_mono {l l' : List (Event A)} (h : l <+: l') : barriers l ≤ barriers l' := by
  obtain ⟨rest, rfl⟩ := h
  simp

/-- Whoever has passed more barriers than come before `y` has executed all that comes before `y`. -/
theorem prefix_of_barriers_lt {done x y : List (Event A)} (h : done <+: x ++ .barrier :: y)
    (hlt : barriers x < barriers done) : x ++ [.barrier] <+: done := by
  have hx : x ++ [.barrier] <+: x ++ .barrier :: y := ⟨y, by simp⟩
  rcases List.prefix_or_prefix_of_prefix hx h with hdone | hdone
  · exact hdone
  · rcases List.prefix_concat_iff.mp hdone with rfl | hdone
    · exact List.prefix_rfl
    · exact absurd (barriers_mono hdone) (by omega)

def after (execute : A → X → X) (done : List (Event A)) (mem : X) : X :=
  done.foldl (fun mem e => match e with
    | .barrier => mem
    | .act a => execute a mem) mem

@[simp] theorem after_nil (execute : A → X → X) (mem : X) : after execute [] mem = mem := rfl

@[simp] theorem after_barrier (execute : A → X → X) (l : List (Event A)) (mem : X) :
    after execute (.barrier :: l) mem = after execute l mem := rfl

@[simp] theorem after_act (execute : A → X → X) (a : A) (l : List (Event A)) (mem : X) :
    after execute (.act a :: l) mem = after execute l (execute a mem) := rfl

theorem after_append (execute : A → X → X) (l l' : List (Event A)) (mem : X) :
    after execute (l ++ l') mem = after execute l' (after execute l mem) := List.foldl_append

end Prefixes

section Runs

variable [DecidableEq R] {execute : R → A → X → X} {s s' : R → Process A X}

/-- What the processes have executed in a run: parts of their lists with equally many barriers. -/
structure Executed (execute : R → A → X → X) (s s' : R → Process A X) (done : R → List (Event A)) : Prop where
  rest : ∀ r, (s r).rest = done r ++ (s' r).rest
  mem : ∀ r, (s' r).mem = after (execute r) (done r) (s r).mem
  barriers_eq : ∀ r r', barriers (done r) = barriers (done r')

theorem Step.executed {done : R → List (Event A)} {s₀ : R → Process A X} (h : Step execute s s')
    (hdone : Executed execute s₀ s done) : ∃ done', Executed execute s₀ s' done' := by
  cases h with
  | @act r a rest h =>
    refine ⟨Function.update done r (done r ++ [.act a]), fun r' => ?_, fun r' => ?_, ?_⟩
    · rcases eq_or_ne r' r with rfl | hr
      · simp [hdone.rest r', h]
      · simp [hr, hdone.rest r']
    · rcases eq_or_ne r' r with rfl | hr
      · simp [hdone.mem r', after_append]
      · simp [hr, hdone.mem r']
    · have hcount : ∀ r', barriers (Function.update done r (done r ++ [.act a]) r') = barriers (done r') := fun r' => by
        rcases eq_or_ne r' r with rfl | hr
        · simp
        · simp [hr]
      intro r' r''
      rw [hcount, hcount, hdone.barriers_eq]
  | @barrier rest h =>
    refine ⟨fun r => done r ++ [.barrier], fun r => ?_, fun r => ?_, fun r r' => ?_⟩
    · simp [hdone.rest r, h r]
    · simp [hdone.mem r, after_append]
    · simp [hdone.barriers_eq r r']

theorem Run.executed (h : Run execute s s') : ∃ done, Executed execute s s' done := by
  induction h with
  | refl => exact ⟨fun _ => [], fun _ => rfl, fun _ => rfl, fun _ _ => rfl⟩
  | tail _ hstep ih =>
    obtain ⟨done, hdone⟩ := ih
    exact hstep.executed hdone

theorem exists_step [Finite R] (hbarriers : ∀ r r', barriers (s r).rest = barriers (s r').rest)
    {r₀ : R} (h : (s r₀).rest ≠ []) : ∃ s', Step execute s s' := by
  by_cases hact : ∃ r a rest, (s r).rest = .act a :: rest
  · obtain ⟨r, a, rest, hr⟩ := hact
    exact ⟨_, .act hr⟩
  · have hhead : ∀ r, (s r).rest = [] ∨ ∃ rest, (s r).rest = .barrier :: rest := by
      intro r
      rcases hrest : (s r).rest with _ | ⟨e, rest⟩
      · exact .inl rfl
      · cases e with
        | barrier => exact .inr ⟨rest, rfl⟩
        | act a => exact absurd ⟨r, a, rest, hrest⟩ hact
    obtain ⟨rest₀, h₀⟩ := (hhead r₀).resolve_left h
    have hall : ∀ r, ∃ rest, (s r).rest = .barrier :: rest := fun r => by
      refine (hhead r).resolve_left fun hnil => ?_
      have hcount := hbarriers r r₀
      rw [hnil, h₀] at hcount
      simp at hcount
    choose rest hrest using hall
    exact ⟨_, .barrier hrest⟩

theorem Step.length_lt [Fintype R] [Nonempty R] (h : Step execute s s') :
    ∑ r, (s' r).rest.length < ∑ r, (s r).rest.length := by
  cases h with
  | @act r a rest h =>
    refine Finset.sum_lt_sum (fun r' _ => ?_) ⟨r, Finset.mem_univ r, by simp [h]⟩
    rcases eq_or_ne r' r with rfl | hr
    · simp [h]
    · simp [hr]
  | @barrier rest h => exact Finset.sum_lt_sum_of_nonempty Finset.univ_nonempty fun r _ => by simp [h r]

theorem exists_complete [Fintype R] [Nonempty R] (hbarriers : ∀ r r', barriers (s r).rest = barriers (s r').rest) :
    ∃ s', Run execute s s' ∧ ∀ r, (s' r).rest = [] := by
  induction hlength : ∑ r, (s r).rest.length using Nat.strong_induction_on generalizing s with
  | _ n ih =>
    by_cases hend : ∀ r, (s r).rest = []
    · exact ⟨s, .refl, hend⟩
    · obtain ⟨r₀, hr₀⟩ := not_forall.mp hend
      obtain ⟨s₁, hstep⟩ : ∃ s₁, Step execute s s₁ := exists_step hbarriers hr₀
      obtain ⟨done, hdone⟩ := Run.executed (.single hstep)
      have hbarriers₁ : ∀ r r', barriers (s₁ r).rest = barriers (s₁ r').rest := fun r r' => by
        have hr := hbarriers r r'
        rw [hdone.rest r, hdone.rest r', barriers_append, barriers_append, hdone.barriers_eq r r'] at hr
        omega
      obtain ⟨s', hrun, hs'⟩ := ih _ (hlength ▸ hstep.length_lt) hbarriers₁ rfl
      exact ⟨s', .head hstep hrun, hs'⟩

end Runs

end PIConGPU.BarrierProcesses
