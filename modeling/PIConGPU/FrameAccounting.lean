import PIConGPU.KernelBashParticles
import PIConGPU.KernelDeleteParticles
import PIConGPU.KernelInsertParticles
import PIConGPU.ShiftParticlesCorrect

/-!
# Frame accounting

The kernels that create and remove frames keep every allocated frame in the list of one supercell, as long as a call
of `getEmptyFrame` gets a frame from its last attempt only. The loop of `getEmptyFrame` does not end with a success,
and the frames of earlier attempts are lost.
-/
namespace PIConGPU

namespace ParticlesBox

variable {D T : ℕ} {α : Type*} {M : MallocMC} {box box' : ParticlesBox D T α} {L : DataSpace D → List Ptr}

section GetEmptyFrame

end GetEmptyFrame

section Balanced

/-- The allocated frames are the frames of the lists, each in one place. -/
def Balanced (box : ParticlesBox D T α) : Prop := ∃ L, Linked box L ∧ ∀ p, p ∈ box.allocated ↔ ∃ c, p ∈ L c

theorem Linked.balanced (hL : Linked box L) (haccounted : ∀ p ∈ box.allocated, ∃ c, p ∈ L c) : Balanced box :=
  ⟨L, hL, fun p => ⟨haccounted p, fun ⟨c, hp⟩ => hL.allocated c p hp⟩⟩

theorem Balanced.congr (h : Balanced box) (hfirst : box'.firstFramePtr = box.firstFramePtr)
    (hlast : box'.lastFramePtr = box.lastFramePtr) (hnext : box'.nextFrame = box.nextFrame)
    (hprevious : box'.previousFrame = box.previousFrame) (halloc : box'.allocated = box.allocated) :
    Balanced box' := by
  obtain ⟨L, hL, hmem⟩ := h
  refine (hL.congr hfirst hlast (fun _ _ _ => by rw [hnext]) (fun _ _ _ => by rw [hprevious])
    fun c p hp => halloc ▸ hL.allocated c p hp).balanced fun p hp => (hmem p).mp (halloc ▸ hp)

theorem Balanced.removeLastFrame (h : Balanced box) (c : DataSpace D) : Balanced (box.removeLastFrame c).2 := by
  obtain ⟨L, hL, hmem⟩ := h
  rcases List.eq_nil_or_concat (L c) with hnil | ⟨l, p, hl⟩
  · have hlast : box.lastFramePtr c = none := by simp [hL.last, hnil]
    have hsame : (box.removeLastFrame c).2 = box := by simp [ParticlesBox.removeLastFrame, hlast]
    rw [hsame]
    exact ⟨L, hL, hmem⟩
  · rw [List.concat_eq_append] at hl
    exact (hL.removeLastFrame hl).2.balanced (hL.accounted_removeLastFrame hl fun p hp => (hmem p).mp hp)

theorem Balanced.setSizeLastFrame (h : Balanced box) (c : DataSpace D) (size : ℕ) :
    Balanced (box.setSizeLastFrame c size) := h.congr rfl rfl rfl rfl rfl

theorem Balanced.deleteParticles (h : Balanced box) (frame : Ptr) (p : Fin T → Prop) [DecidablePred p] :
    Balanced (box.deleteParticles frame p) := h.congr rfl rfl rfl rfl rfl

theorem foldlM_keeps {S κ : Type*} {I : S → Prop} {step : S → κ → Option S} {l : List κ} {s s' : S}
    (hstep : ∀ x ∈ l, ∀ s s', I s → step s x = some s' → I s') (h : I s) (hrun : l.foldlM step s = some s') :
    I s' := by
  induction l generalizing s with
  | nil => exact Option.some_inj.mp hrun ▸ h
  | cons x l ih =>
    rw [List.foldlM_cons] at hrun
    obtain ⟨s₁, hfirst, hrest⟩ := Option.bind_eq_some_iff.mp hrun
    exact ih (fun y hy => hstep y (List.mem_cons_of_mem x hy)) (hstep x List.mem_cons_self s s₁ h hfirst) hrest

end Balanced

end ParticlesBox

open ParticlesBox KernelLaunch
open KernelBashParticles (Memory)

variable {D T : ℕ} {α : Type*} {M : MallocMC} {box box' : ParticlesBox D T α} {L : DataSpace D → List Ptr}
  {c : DataSpace D}

namespace KernelFillGaps

theorem balanced_moveParticles {firstFrame lastFrame : Ptr} {σ : Equiv.Perm (Fin T) × Equiv.Perm (Fin T)}
    (h : Balanced box) (hrun : moveParticles box firstFrame lastFrame σ = some box') : Balanced box' := by
  unfold moveParticles at hrun
  split at hrun
  · exact Option.some_inj.mp hrun ▸ h.congr rfl rfl rfl rfl rfl
  · cases hrun

theorem balanced_round {σ : Equiv.Perm (Fin T) × Equiv.Perm (Fin T)} {firstFrame lastFrame : Ptr}
    {next : Option (Ptr × Ptr)} (h : Balanced box) (hrun : round c σ firstFrame lastFrame box = some (next, box')) :
    Balanced box' := by
  unfold round at hrun
  dsimp only at hrun
  split at hrun
  · exact (Prod.mk.inj (Option.some_inj.mp hrun)).2 ▸ h
  split at hrun
  · exact (Prod.mk.inj (Option.some_inj.mp hrun)).2 ▸ h
  obtain ⟨box₁, hmove, hrun⟩ := Option.map_eq_some_iff.mp hrun
  have h₁ := balanced_moveParticles h hmove
  split at hrun
  · exact (Prod.mk.inj hrun).2 ▸ h₁
  · exact (Prod.mk.inj hrun).2 ▸ h₁.removeLastFrame c

theorem balanced_fillGaps {order : ℕ → Equiv.Perm (Fin T) × Equiv.Perm (Fin T)} {n : ℕ} {firstFrame lastFrame : Ptr}
    (h : Balanced box) (hrun : fillGaps c order n firstFrame lastFrame box = some box') : Balanced box' := by
  induction n generalizing firstFrame lastFrame box with
  | zero => cases hrun
  | succ n ih =>
    rw [fillGaps_succ] at hrun
    obtain ⟨⟨next, box₁⟩, hround, hrest⟩ := Option.bind_eq_some_iff.mp hrun
    have h₁ := balanced_round h hround
    cases next with
    | none => exact Option.some_inj.mp hrest ▸ h₁
    | some next => exact ih h₁ hrest

theorem balanced_block {order : ℕ → Equiv.Perm (Fin T) × Equiv.Perm (Fin T)} (h : Balanced box)
    (hrun : block order box c = some box') : Balanced box' := by
  unfold block at hrun
  split at hrun
  · exact balanced_fillGaps h hrun
  · exact Option.some_inj.mp hrun ▸ h

end KernelFillGaps

namespace KernelFillGapsLastFrame

theorem balanced_block {σ : Equiv.Perm (Fin T) × Equiv.Perm (Fin T) × Equiv.Perm (Fin T)} (h : Balanced box)
    (hrun : block σ box c = some box') : Balanced box' := by
  unfold block at hrun
  split at hrun
  · exact Option.some_inj.mp hrun ▸ h.setSizeLastFrame c 0
  · obtain ⟨box₁, hmove, rfl⟩ := Option.map_eq_some_iff.mp hrun
    refine Balanced.setSizeLastFrame ?_ c _
    unfold moveParticles at hmove
    split at hmove
    · exact Option.some_inj.mp hmove ▸ h.congr rfl rfl rfl rfl rfl
    · cases hmove

end KernelFillGapsLastFrame

namespace KernelDeleteParticles

theorem balanced_loop {n : ℕ} {frame : Option Ptr} (h : Balanced box) (hrun : loop c n frame box = some box') :
    Balanced box' := by
  induction n generalizing frame box with
  | zero =>
    cases frame with
    | none => exact Option.some_inj.mp hrun ▸ h.setSizeLastFrame c 0
    | some frame => cases hrun
  | succ n ih =>
    cases frame with
    | none => exact Option.some_inj.mp hrun ▸ h.setSizeLastFrame c 0
    | some frame => exact ih ((h.deleteParticles frame _).removeLastFrame c) hrun

end KernelDeleteParticles

namespace KernelBashParticles

theorem balanced_step {maxSize exchangeType : ℕ} {m m' : Memory D T α} {phase phase' : Phase T} (h : Balanced m.box)
    (hstep : Block maxSize exchangeType c m phase m' phase') : Balanced m'.box := by
  cases hstep with
  | init | count | push => exact h
  | bash order => exact h.deleteParticles _ _
  | remove => exact h.removeLastFrame c
  | finish => exact h.setSizeLastFrame c 0

end KernelBashParticles

namespace KernelShiftParticles

variable {r : ℕ} {st st' : ShiftBlock D T α} {j : ℕ}

theorem Destinations.getEmptyFrame (hM : MallocMC.ServesOnly M r) (h : Destinations True r c st L)
    (hj : j < numberOfExchanges D) (hd : st.destFrames j = none) :
    Destinations True r c { st with
      box := (st.box.getEmptyFrame M).2
      destFrames := Function.update st.destFrames j (st.box.getEmptyFrame M).1 } L := by
  have hlast := lastTryOnly_of_servesOnly hM h.attempts
  have halloc := getEmptyFrame_allocation M st.box
  have hadded := hlast.allocated_eq
  have hatt := getEmptyFrame_attempts_mod (M := M) h.attempts
  cases hp : (st.box.getEmptyFrame M).1 with
  | some p =>
    rw [hp] at halloc hadded
    exact (h.newFrame hj hd halloc hatt (fun _ => hadded) rfl).1
  | none =>
    rw [hp, Option.elim_none] at hadded
    rw [show Function.update st.destFrames j none = st.destFrames from hd ▸ Function.update_eq_self j _]
    exact ⟨halloc.linked h.linked, hatt, h.neighbor, fun i hi hn p hp => by
      rw [hadded]
      exact h.fresh i hi hn p hp, h.distinct, fun _ p hp => h.accounted trivial p (hadded ▸ hp)⟩

theorem Destinations.allocate (hM : MallocMC.ServesOnly M r) (h : Destinations True r c st L)
    (hj : j < numberOfExchanges D) : Destinations True r c (allocate M st j) L := by
  unfold KernelShiftParticles.allocate
  split
  case isTrue hcond => exact h.getEmptyFrame hM hj hcond.2
  case isFalse => exact h

theorem Destinations.copy (h : Destinations True r c st L) {σ : Equiv.Perm (Fin T)} {frame : Ptr}
    {target : Fin T → Option (ℕ × ℕ)} (hrun : copy σ frame target st = some st') : Destinations True r c st' L := by
  unfold KernelShiftParticles.copy at hrun
  split at hrun
  · obtain rfl := Option.some_inj.mp hrun
    exact ⟨h.linked.congr rfl rfl (fun _ _ _ => rfl) (fun _ _ _ => rfl) h.linked.allocated, h.attempts, h.neighbor,
      h.fresh, h.distinct, h.accounted⟩
  · cases hrun

theorem Destinations.flush (hM : MallocMC.ServesOnly M r) (h : Destinations True r c st L)
    (hj : j < numberOfExchanges D) (hrun : flush M c st j = some st') : ∃ L', Destinations True r c st' L' := by
  unfold KernelShiftParticles.flush at hrun
  split at hrun
  case isFalse => exact Option.some_inj.mp hrun ▸ ⟨L, h⟩
  case isTrue =>
    obtain ⟨box₁, hbox, rfl⟩ := Option.map_eq_some_iff.mp hrun
    obtain ⟨p, hp, hbox₁⟩ : ∃ p, st.destFrames j = some p ∧ box₁ =
        if st.isNeighborFrame j then st.box.setSizeLastFrame (relative c j) T
        else st.box.setAsFirstFrame p (relative c j) := by
      unfold KernelShiftParticles.handOver at hbox
      cases hn : st.isNeighborFrame j with
      | true =>
        obtain ⟨l, p, -, hp⟩ := h.neighbor j hj hn
        rw [hn] at hbox
        exact ⟨p, hp, (Option.some_inj.mp hbox).symm⟩
      | false =>
        rw [hn] at hbox
        obtain ⟨p, hp, rfl⟩ := Option.map_eq_some_iff.mp hbox
        exact ⟨p, hp, rfl⟩
    obtain ⟨L', h₁, -⟩ := h.handOver hj hp (st.destFramesCounter j - T) rfl
    rw [← hbox₁] at h₁
    refine ⟨L', ?_⟩
    dsimp only
    split
    case isTrue =>
      have h₂ := h₁.getEmptyFrame hM hj (Function.update_self j none st.destFrames)
      rwa [Function.update_idem] at h₂
    case isFalse => exact h₁

theorem Destinations.shiftFrame (hM : MallocMC.ServesOnly M r) (h : Destinations True r c st L)
    {σ : Equiv.Perm (Fin T)} {frame : Ptr} (hrun : shiftFrame M c σ frame st = some st') :
    ∃ L', Destinations True r c st' L' := by
  unfold KernelShiftParticles.shiftFrame at hrun
  split at hrun
  case isFalse => cases hrun
  case isTrue =>
    have hallocated : Destinations True r c
        ((List.range (numberOfExchanges D)).foldl (KernelShiftParticles.allocate M) (deleteMarked σ frame st)) L :=
      List.foldlRecOn (motive := fun st => Destinations True r c st L) _ _ (deleteMarked_destinations h σ frame)
        fun _ hst j hj => hst.allocate hM (List.mem_range.mp hj)
    dsimp only at hrun
    split at hrun
    · obtain ⟨st₁, hfirst, hrun⟩ := Option.bind_eq_some_iff.mp hrun
      obtain ⟨st₂, hflush, hsecond⟩ := Option.bind_eq_some_iff.mp hrun
      obtain ⟨L₂, h₂⟩ := foldlM_keeps (I := fun st => ∃ L, Destinations True r c st L)
        (fun j hj _ _ ⟨_, hst⟩ hstep => hst.flush hM (List.mem_range.mp hj) hstep) ⟨L, hallocated.copy hfirst⟩ hflush
      exact ⟨L₂, h₂.copy hsecond⟩
    · exact ⟨L, hallocated.copy hrun⟩

theorem Destinations.shiftFrames (hM : MallocMC.ServesOnly M r) (h : Destinations True r c st L)
    {order : ℕ → Equiv.Perm (Fin T)} {n : ℕ} {frame : Ptr} (hrun : shiftFrames M c order n frame st = some st') :
    ∃ L', Destinations True r c st' L' := by
  induction n generalizing frame st L with
  | zero => cases hrun
  | succ n ih =>
    rw [KernelShiftParticles.shiftFrames] at hrun
    obtain ⟨st₁, hfirst, hrest⟩ := Option.bind_eq_some_iff.mp hrun
    obtain ⟨L₁, h₁⟩ := h.shiftFrame hM hfirst
    split at hrest
    · exact Option.some_inj.mp hrest ▸ ⟨L₁, h₁⟩
    · exact ih h₁ hrest

/-- A frame in work that got no particle is freed. -/
theorem Destinations.removeFrame (h : Destinations True r c st L) (hj : j < numberOfExchanges D)
    (hn : st.isNeighborFrame j = false) {p : Ptr} (hp : st.destFrames j = some p) :
    Destinations True r c {
      box := st.box.removeFrame p
      destFrames := Function.update st.destFrames j none
      destFramesCounter := st.destFramesCounter
      isNeighborFrame := Function.update st.isNeighborFrame j false } L := by
  obtain ⟨-, hfree⟩ := h.fresh j hj hn p hp
  have hne : ∀ {i q}, Function.update st.destFrames j none i = some q → i ≠ j := by
    rintro i q hq rfl
    simp at hq
  refine ⟨h.linked.congr rfl rfl (fun _ _ _ => rfl) (fun _ _ _ => rfl) fun s q hq =>
    Finset.mem_erase.mpr ⟨fun he => hfree s (he ▸ hq), h.linked.allocated s q hq⟩, h.attempts, fun i hi hni => ?_,
    fun i hi hni q hq => ?_, fun i₁ hi₁ i₂ hi₂ _ _ q hq₁ hq₂ => ?_, fun _ q hq => ?_⟩
  · have hij : i ≠ j := by
      rintro rfl
      simp at hni
    simp only [Function.update_of_ne hij] at hni ⊢
    exact h.neighbor i hi hni
  · have hij := hne hq
    simp only [Function.update_of_ne hij] at hni hq
    obtain ⟨hqa, hqL⟩ := h.fresh i hi hni q hq
    exact ⟨Finset.mem_erase.mpr ⟨fun he => hij (h.dest_inj hi hj hq (he ▸ hp)), hqa⟩, hqL⟩
  · have h₁ := hne hq₁
    have h₂ := hne hq₂
    simp only [Function.update_of_ne h₁] at hq₁
    simp only [Function.update_of_ne h₂] at hq₂
    exact h.dest_inj hi₁ hi₂ hq₁ hq₂
  · obtain ⟨hqp, hq⟩ := Finset.mem_erase.mp hq
    refine (h.accounted trivial q hq).imp_right fun ⟨i, hi, hni, hqi⟩ => ?_
    have hij : i ≠ j := by
      rintro rfl
      exact hqp (Option.some_inj.mp (hqi.symm.trans hp))
    exact ⟨i, hi, by simpa [Function.update_of_ne hij] using hni, by simpa [Function.update_of_ne hij] using hqi⟩

theorem Destinations.finishAndClear (h : Destinations True r c st L) (hj : j < numberOfExchanges D)
    (hrun : finishAndClear c st j = some st') : ∃ L', Destinations True r c st' L' := by
  obtain ⟨box, hfinish, rfl⟩ := Option.map_eq_some_iff.mp hrun
  unfold finish at hfinish
  split at hfinish
  case isTrue =>
    obtain ⟨box₁, hbox, rfl⟩ := Option.map_eq_some_iff.mp hfinish
    cases hn : st.isNeighborFrame j with
    | true =>
      rw [hn] at hbox
      obtain rfl := Option.some_inj.mp hbox
      exact ⟨L, (h.clear hj (.inl hn) _ rfl fun s hs => Function.update_of_ne hs _ _).1⟩
    | false =>
      rw [hn] at hbox
      obtain ⟨p, hp, rfl⟩ := Option.map_eq_some_iff.mp hbox
      obtain ⟨L₁, h₁, -⟩ := h.appendFrame hj hn hp _ rfl
      exact ⟨L₁, h₁⟩
  case isFalse =>
    cases hd : st.destFrames j with
    | none =>
      rw [hd] at hfinish
      obtain rfl := Option.some_inj.mp hfinish
      exact ⟨L, (h.clear hj (.inr hd) st.box.sizeLastFrame rfl fun _ _ => rfl).1⟩
    | some p =>
      rw [hd] at hfinish
      obtain rfl := Option.some_inj.mp hfinish
      cases hn : st.isNeighborFrame j with
      | true => exact ⟨L, (h.clear hj (.inl hn) st.box.sizeLastFrame rfl fun _ _ => rfl).1⟩
      | false => exact ⟨L, h.removeFrame hj hn hd⟩

theorem exists_clear_of_foldlM_finish {n : ℕ} (h : (List.range n).foldlM (finish c st) st.box = some box) :
    ∃ st', (List.range n).foldlM (KernelShiftParticles.finishAndClear c) st = some st' ∧ st'.box = box ∧
      ∀ j < n, st'.destFrames j = none := by
  induction n generalizing box with
  | zero => exact ⟨st, rfl, Option.some_inj.mp h, fun j hj => absurd hj (Nat.not_lt_zero j)⟩
  | succ n ih =>
    rw [List.range_succ, List.foldlM_append] at h
    obtain ⟨box₁, hfirst, hlast⟩ := Option.bind_eq_some_iff.mp h
    obtain ⟨st₁, hclear, rfl, hnone⟩ := ih hfirst
    obtain ⟨-, hcounter, hkept⟩ := foldlM_finish_of_clear hclear
    obtain ⟨hd, hn⟩ := hkept n le_rfl
    have hfinish : finish c st₁ st₁.box n = some box := by
      rw [← show finish c st st₁.box n = some box by simpa using hlast]
      simp only [finish, hcounter, hd, hn]
    refine ⟨{
      box := box
      destFrames := Function.update st₁.destFrames n none
      destFramesCounter := st₁.destFramesCounter
      isNeighborFrame := Function.update st₁.isNeighborFrame n false }, ?_, rfl, fun j hj => ?_⟩
    · rw [List.range_succ, List.foldlM_append, hclear]
      simp [KernelShiftParticles.finishAndClear, hfinish]
    · by_cases hjn : j = n
      · exact hjn ▸ Function.update_self _ _ _
      · exact (Function.update_of_ne hjn _ _).trans (hnone j (by omega))

theorem balanced_block (hM : MallocMC.ServesOnly M r) {order : ℕ → Equiv.Perm (Fin T)} (h : Balanced box)
    (hatt : (box.attempts + 12) % maxTries = r) (hrun : block M order box c = some box') :
    Balanced box' ∧ (box'.attempts + 12) % maxTries = r := by
  unfold block at hrun
  split at hrun
  case isFalse => exact Option.some_inj.mp hrun ▸ ⟨h, hatt⟩
  case isTrue =>
    have h₀ : Balanced (box.setMustShift c false) := h.congr rfl rfl rfl rfl rfl
    dsimp only at hrun
    split at hrun
    · exact Option.some_inj.mp hrun ▸ ⟨h₀, hatt⟩
    · obtain ⟨st, hloop, hfinish⟩ := Option.bind_eq_some_iff.mp hrun
      obtain ⟨L, hL, hmem⟩ := h₀
      obtain ⟨L₁, h₁⟩ := Destinations.shiftFrames hM
        (init_destinations hL hatt (fun _ p hp => (hmem p).mp hp) c) hloop
      obtain ⟨st', hclear, rfl, hnone⟩ := exists_clear_of_foldlM_finish hfinish
      obtain ⟨L', h'⟩ := foldlM_keeps (I := fun st => ∃ L, Destinations True r c st L)
        (fun j hj _ _ ⟨_, hst⟩ hstep => hst.finishAndClear (List.mem_range.mp hj) hstep) ⟨L₁, h₁⟩ hclear
      refine ⟨h'.linked.balanced fun p hp => (h'.accounted trivial p hp).resolve_right ?_, h'.attempts⟩
      rintro ⟨j, hj, -, hpj⟩
      rw [hnone j hj] at hpj
      cases hpj

end KernelShiftParticles

namespace KernelInsertParticles

variable {mapper : MappingDescription D} {exchangeType : ℕ} {start m m' : Memory D T α} {phase phase' : Phase D}

def LastTryStep (M : MallocMC) (m : Memory D T α) : Phase D → Prop
  | .malloc _ numTries _ => numTries + 1 < maxTries → M.malloc m.box.attempts m.box.allocated = none
  | _ => True

/-- A block has a frame after its last attempt only. -/
def HasFrameLast : Phase D → Prop
  | .malloc _ numTries (some _) => numTries = maxTries
  | _ => True

theorem LastTryStep.hasFrameLast (h : LastTryStep M m phase) (hstep : Block M mapper exchangeType m phase m' phase') :
    HasFrameLast phase' := by
  cases hstep with
  | pop => split <;> trivial
  | @malloc entry numTries tmp hlt =>
    by_cases hlast : numTries + 1 < maxTries
    · have hnone : (tryMalloc M (tmp, m.box) numTries).1 = none := by
        unfold tryMalloc
        dsimp only
        rw [h hlast]
      rw [hnone]
      trivial
    · cases (tryMalloc M (tmp, m.box) numTries).1 with
      | none => trivial
      | some p => exact le_antisymm hlt (not_lt.mp hlast)
  | _ => trivial

def BlockIf (lastTry : Prop) (M : MallocMC) (mapper : MappingDescription D) (exchangeType : ℕ) (m : Memory D T α)
    (phase : Phase D) (m' : Memory D T α) (phase' : Phase D) : Prop :=
  (lastTry → LastTryStep M m phase) ∧ Block M mapper exchangeType m phase m' phase'

/-- No frame is leaked, and no block tries again with a frame. -/
def Leakless {ι : Type*} [Fintype ι] (M : MallocMC) (mapper : MappingDescription D) (exchangeType : ℕ)
    (start : Memory D T α) (L : DataSpace D → List Ptr) (s : Memory D T α × (ι → Phase D)) : Prop :=
  ∃ L', Inserting M mapper exchangeType start L L' ∅ s.1 s.2 ∧ ∀ b, HasFrameLast (s.2 b)

variable {ι : Type*} [Fintype ι] [DecidableEq ι] {lastTry : Prop} (hlastTry : lastTry)
  (hsize : start.border.counters.indexSize < 2^31) (hformed : start.border.WellFormed T)
include hlastTry hsize hformed

theorem leakless_step : Preserved (fun _ : ι => BlockIf lastTry M mapper exchangeType)
    (Leakless M mapper exchangeType start L) := by
  rintro b m m' phases phase ⟨L', h, hlast⟩ ⟨htry, hstep⟩
  obtain ⟨L'', leaked', hnext, hleak⟩ := h.step hsize hformed hstep
  obtain rfl : leaked' = ∅ := by
    refine hleak.resolve_right ?_
    rintro ⟨entry, numTries, p, hphase, hlt⟩
    have hfull := hlast b
    dsimp only at hfull hphase
    rw [hphase] at hfull
    exact hlt.ne hfull
  refine ⟨L'', hnext, fun b' => ?_⟩
  dsimp only
  by_cases hb : b' = b
  · subst hb
    rw [Function.update_self]
    exact (htry hlastTry).hasFrameLast hstep
  · rw [Function.update_of_ne hb]
    exact hlast b'

theorem balanced_run (hcard : Fintype.card ι = start.border.counters.indexSize) (h : Balanced start.box)
    (hrun : Run (fun _ : ι => BlockIf lastTry M mapper exchangeType) (start, fun _ => .pop) (m, fun _ => .finished)) :
    Balanced m.box := by
  obtain ⟨L, hL, hmem⟩ := h
  have hleaked : {p | p ∈ start.box.allocated ∧ ∀ c, p ∉ L c} = ∅ :=
    Set.eq_empty_of_forall_notMem fun p ⟨hp, hnot⟩ => ((hmem p).mp hp).elim hnot
  obtain ⟨L', h', -⟩ := hrun.invariant (leakless_step hlastTry hsize hformed)
    ⟨L, hleaked ▸ inserting_start hL hcard, fun _ => trivial⟩
  obtain ⟨hlinked, -, haccounted⟩ := h'.inserted
  exact hlinked.balanced fun p hp => (haccounted p hp).resolve_left (Set.notMem_empty p)

end KernelInsertParticles

namespace ParticlesBase

/-- A completed launch of a kernel, with the blocks in any order and an allocator of its own. If `lastTry` holds, no
attempt gets a frame but the last one of a call of `getEmptyFrame`. The received stack has entries of at most `T`
particles, as `KernelBashParticles` leaves them. -/
inductive Launch (lastTry : Prop) : ParticlesBox D T α → ParticlesBox D T α → Prop
  | shiftParticles {box box' : ParticlesBox D T α} (M : MallocMC) (order : DataSpace D → ℕ → Equiv.Perm (Fin T))
      (blocks : List (DataSpace D)) (hM : lastTry → MallocMC.ServesOnly M ((box.attempts + 12) % maxTries))
      (hrun : blocks.foldlM (fun box c => KernelShiftParticles.block M (order c) box c) box = some box') :
    Launch lastTry box box'
  | fillGaps {box box' : ParticlesBox D T α} (order : DataSpace D → ℕ → Equiv.Perm (Fin T) × Equiv.Perm (Fin T))
      (blocks : List (DataSpace D))
      (hrun : blocks.foldlM (fun box c => KernelFillGaps.block (order c) box c) box = some box') :
    Launch lastTry box box'
  | fillGapsLastFrame {box box' : ParticlesBox D T α}
      (order : DataSpace D → Equiv.Perm (Fin T) × Equiv.Perm (Fin T) × Equiv.Perm (Fin T)) (blocks : List (DataSpace D))
      (hrun : blocks.foldlM (fun box c => KernelFillGapsLastFrame.block (order c) box c) box = some box') :
    Launch lastTry box box'
  | deleteParticles {box box' : ParticlesBox D T α} (blocks : List (DataSpace D))
      (hrun : KernelDeleteParticles.run blocks box = some box') : Launch lastTry box box'
  | bashParticles {m m' : Memory D T α} {n : ℕ} (maxSize exchangeType : ℕ) (superCellIdx : Fin n → DataSpace D)
      (hrun : Run (fun b => KernelBashParticles.Block maxSize exchangeType (superCellIdx b)) (m, fun _ => .init)
        (m', fun _ => .finished)) : Launch lastTry m.box m'.box
  | insertParticles {m m' : Memory D T α} (M : MallocMC) (mapper : MappingDescription D)
      (exchangeType : ℕ) (hsize : m.border.counters.indexSize < 2^31) (hformed : m.border.WellFormed T)
      (hrun : Run (fun _ : Fin m.border.counters.indexSize =>
        KernelInsertParticles.BlockIf lastTry M mapper exchangeType) (m, fun _ => .pop) (m', fun _ => .finished)) :
    Launch lastTry m.box m'.box

theorem Launch.balanced {lastTry : Prop} (hlastTry : lastTry) (hlaunch : Launch lastTry box box') (h : Balanced box) :
    Balanced box' := by
  cases hlaunch with
  | shiftParticles M order blocks hM hrun =>
    exact (foldlM_keeps
      (I := fun box' => Balanced box' ∧ (box'.attempts + 12) % maxTries = (box.attempts + 12) % maxTries)
      (fun c _ _ _ h hstep => KernelShiftParticles.balanced_block (hM hlastTry) h.1 h.2 hstep) ⟨h, rfl⟩ hrun).1
  | fillGaps order blocks hrun =>
    exact foldlM_keeps (fun c _ _ _ h hstep => KernelFillGaps.balanced_block h hstep) h hrun
  | fillGapsLastFrame order blocks hrun =>
    exact foldlM_keeps (fun c _ _ _ h hstep => KernelFillGapsLastFrame.balanced_block h hstep) h hrun
  | deleteParticles blocks hrun =>
    exact foldlM_keeps (fun c _ _ _ h hstep => KernelDeleteParticles.balanced_loop h hstep) h hrun
  | bashParticles maxSize exchangeType superCellIdx hrun =>
    exact hrun.invariant (I := fun s => Balanced s.1.box)
      (fun b _ _ _ _ h hstep => KernelBashParticles.balanced_step h hstep) h
  | insertParticles M mapper exchangeType hsize hformed hrun =>
    exact KernelInsertParticles.balanced_run hlastTry hsize hformed (Fintype.card_fin _) h hrun

section MarkedFrame

open KernelShiftParticles (relative)

end MarkedFrame

end ParticlesBase

end PIConGPU
