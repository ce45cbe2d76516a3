import PIConGPU.BlockRounds
import PIConGPU.CreatedParticles

/-!
# KernelIonizeParticles

A block goes through the ion frames of its supercell from the last one to the first one. An ionizer decides how many
electrons each ion loses, and in every round a thread writes one of them to a new electron frame. The electron frame in
work and its fill level are kept from one ion frame to the next.
-/
namespace PIConGPU.KernelIonizeParticles

open ParticlesBox BlockRounds

/-- `frameIonizer` changes an ion and returns the number of its new electrons. `writeElectron` returns an electron and
what is left of its ion. -/
structure Ionizer (σ α β : Type*) where
  frameIonizer : σ → α → σ × α × ℕ
  writeElectron : α → β × α

/-- The attributes of the ions, the electrons and the variables of a block. -/
structure Block (D T : ℕ) (σ α β : Type*) where
  ions : Ptr → Fin T → α
  electronBox : ParticlesBox D T β
  electronFrame : Option Ptr
  newFrameFillLvl : ℕ
  frameIonizer : Fin T → σ
  newMacroElectrons : Fin T → ℕ

inductive Phase (D T : ℕ) (σ α β : Type*)
  | frame (ionFrame : Option Ptr) (block : Block D T σ α β)
  | create (ionFrame : Ptr) (block : Block D T σ α β)

variable {D T : ℕ} {σ α β : Type*}

section Block

variable (F : Ionizer σ α β) (M : MallocMC) (ionBox : ParticlesBox D T α) (superCellIdx : DataSpace D)

/-- The ionizer is called for the slots with an ion. -/
def Block.ionize (ionFrame : Ptr) (block : Block D T σ α β) : Block D T σ α β :=
  let ionized := fun t => F.frameIonizer (block.frameIonizer t) (block.ions ionFrame t)
  let isParticle := fun t => ionBox.multiMask ionFrame t ≠ 0
  { block with
    frameIonizer := fun t => if isParticle t then (ionized t).1 else block.frameIonizer t
    ions := Function.update block.ions ionFrame fun t => if isParticle t then (ionized t).2.1 else block.ions ionFrame t
    newMacroElectrons := fun t => if isParticle t then (ionized t).2.2 else block.newMacroElectrons t }

def Block.electron (ionFrame : Ptr) (block : Block D T σ α β) (t : Fin T) : β :=
  (F.writeElectron (block.ions ionFrame t)).1

def Block.wrote (ionFrame : Ptr) (writes : Fin T → Bool) (block : Block D T σ α β) : Block D T σ α β :=
  { block with
    ions := Function.update block.ions ionFrame fun t =>
      if writes t then (F.writeElectron (block.ions ionFrame t)).2 else block.ions ionFrame t
    newMacroElectrons := fun t => if writes t then block.newMacroElectrons t - 1 else block.newMacroElectrons t }

/-- The electron frame in work, or a first new frame. -/
def Block.targetFrame (block : Block D T σ α β) : Option (Ptr × ParticlesBox D T β) :=
  match block.electronFrame with
  | some frame => some (frame, block.electronBox)
  | none => appendFrame M superCellIdx block.electronBox

/-- One round over an ion frame. The loop ends if the fill level has not changed. -/
def round (order : Equiv.Perm (Fin T)) (ionFrame : Ptr) (block : Block D T σ α β) : Option (Phase D T σ α β) :=
  let drawn := drawNumbers (fun t => 0 < block.newMacroElectrons t) order block.newFrameFillLvl
  let electronId := drawn.2
  if block.newFrameFillLvl = drawn.1 then some (.frame (ionBox.previousFrame ionFrame) block)
  else (block.targetFrame M superCellIdx).bind fun (frame, box) =>
    let box := firstFlush (BlockThreads.threadOrder order) electronId (block.electron F ionFrame) frame box
    let block := block.wrote F ionFrame fun t => (electronId t).any (· < T)
    (renewFrame M superCellIdx drawn.1 frame box).map fun (level, frame, box) =>
      let box := secondFlush (BlockThreads.threadOrder order) electronId (block.electron F ionFrame) frame box
      let block := block.wrote F ionFrame fun t => (electronId t).any (T ≤ ·)
      .create ionFrame { block with electronBox := box, electronFrame := some frame, newFrameFillLvl := level }

def next (order : Equiv.Perm (Fin T)) : Phase D T σ α β → Option (Phase D T σ α β)
  | .frame none _ => none
  | .frame (some ionFrame) block => some (.create ionFrame (block.ionize F ionBox ionFrame))
  | .create ionFrame block => round F M ionBox superCellIdx order ionFrame block

def start (electronBox : ParticlesBox D T β) (frameIonizer : Fin T → σ) : Phase D T σ α β :=
  .frame (ionBox.lastFramePtr superCellIdx) ⟨ionBox.attributes, electronBox, none, 0, frameIonizer, fun _ => 0⟩

def electrons : ℕ → α → Multiset β
  | 0, _ => 0
  | n + 1, ion => (F.writeElectron ion).1 ::ₘ electrons n (F.writeElectron ion).2

/-- The live ions of some frames after their ionization, with the numbers of their new electrons. -/
def ionized (ions : Ptr → Fin T → α) : List Ptr → (Fin T → σ) → Multiset (α × ℕ)
  | [], _ => 0
  | p :: frames, frameIonizer =>
    (Finset.univ.filter fun t => ionBox.multiMask p t ≠ 0).val.map
        (fun t => (F.frameIonizer (frameIonizer t) (ions p t)).2) +
      ionized ions frames fun t =>
        if ionBox.multiMask p t ≠ 0 then (F.frameIonizer (frameIonizer t) (ions p t)).1 else frameIonizer t

def newElectrons (ions : Ptr → Fin T → α) (frames : List Ptr) (frameIonizer : Fin T → σ) : Multiset β :=
  (ionized F ionBox ions frames frameIonizer).bind fun ion => electrons F ion.2 ion.1

end Block

section Electrons

variable {F : Ionizer σ α β} {ionBox : ParticlesBox D T α}

theorem card_electrons (n : ℕ) (ion : α) : (electrons F n ion).card = n := by
  induction n generalizing ion with
  | zero => rfl
  | succ n ih => rw [electrons, Multiset.card_cons, ih]

/-- There are as many electrons as the ionizer says. -/
theorem card_newElectrons (ions : Ptr → Fin T → α) (frames : List Ptr) (frameIonizer : Fin T → σ) :
    (newElectrons F ionBox ions frames frameIonizer).card =
      ((ionized F ionBox ions frames frameIonizer).map Prod.snd).sum := by
  rw [newElectrons, Multiset.card_bind]
  exact congrArg _ (Multiset.map_congr rfl fun ion _ => card_electrons ion.2 ion.1)

theorem electrons_eq (n : ℕ) (ion : α) : electrons F n ion =
    (if 0 < n then {(F.writeElectron ion).1} else 0) +
      electrons F (n - 1) (if 0 < n then (F.writeElectron ion).2 else ion) := by
  cases n with
  | zero => simp [electrons]
  | succ n => simp [electrons, Multiset.singleton_add]

theorem ionized_congr {ions ions' : Ptr → Fin T → α} {frames : List Ptr} (h : ∀ p ∈ frames, ions' p = ions p)
    (frameIonizer : Fin T → σ) : ionized F ionBox ions' frames frameIonizer = ionized F ionBox ions frames frameIonizer := by
  induction frames generalizing frameIonizer with
  | nil => rfl
  | cons p frames ih =>
    obtain ⟨hp, hframes⟩ := List.forall_mem_cons.mp h
    rw [ionized, ionized, hp, ih hframes]

end Electrons

section Spec

variable {F : Ionizer σ α β} {M : MallocMC} {ionBox : ParticlesBox D T α} {electronBox : ParticlesBox D T β}
  {L : DataSpace D → List Ptr} {c : DataSpace D} {r : ℕ} {goal rest : Multiset β} {block : Block D T σ α β}
  {ionFrame : Ptr} {order : Equiv.Perm (Fin T)}

/-- The electron frame in work is one of the given frames. -/
def Block.Work (old frames : List Ptr) (block : Block D T σ α β) : Prop :=
  match block.electronFrame with
  | none => block.newFrameFillLvl = 0
  | some frame => Room block.electronBox old ∅ frames frame block.newFrameFillLvl

/-- The electrons that were written and those that are left are the expected ones. -/
def Creating (r : ℕ) (electronBox : ParticlesBox D T β) (L : DataSpace D → List Ptr) (c : DataSpace D)
    (goal rest : Multiset β) (block : Block D T σ α β) : Prop :=
  ∃ frames created, Created r electronBox L c ∅ frames created block.electronBox ∧ block.Work (L c) frames ∧
    created + rest = goal

def Block.remaining (F : Ionizer σ α β) (ionFrame : Ptr) (block : Block D T σ α β) : Multiset β :=
  ∑ t, electrons F (block.newMacroElectrons t) (block.ions ionFrame t)

theorem Block.Work.targetFrame {frames : List Ptr} {created : Multiset β} (hM : MallocMC.Serves M r)
    (hcreated : Created r electronBox L c ∅ frames created block.electronBox) (h : block.Work (L c) frames) :
    ∃ frame box frames', block.targetFrame M c = some (frame, box) ∧
      Created r electronBox L c ∅ frames' created box ∧ Room box (L c) ∅ frames' frame block.newFrameFillLvl := by
  unfold Block.Work at h
  unfold Block.targetFrame
  cases hframe : block.electronFrame with
  | none =>
    rw [hframe] at h
    obtain ⟨frame, box, happend, hcreated', hempty⟩ := hcreated.append hM
    exact ⟨frame, box, _, happend, hcreated', .inl (by simp), fun i _ => by rw [hempty], h.trans_le (Nat.zero_le T)⟩
  | some frame =>
    rw [hframe] at h
    exact ⟨frame, block.electronBox, frames, rfl, hcreated, h⟩

theorem wrote_wrote {writes writes' : Fin T → Bool} (h : ∀ t, writes t = true → writes' t = false) :
    (block.wrote F ionFrame writes).wrote F ionFrame writes' = block.wrote F ionFrame fun t => writes t || writes' t := by
  simp only [Block.wrote, Function.update_self, Function.update_idem]
  congr 2
  · funext t
    by_cases hw : writes t = true
    · simp [hw, h t hw]
    · simp [hw]
  · funext t
    by_cases hw : writes t = true
    · simp [hw, h t hw]
    · simp [hw]

theorem remaining_wrote : block.remaining F ionFrame =
    (Finset.univ.filter fun t => decide (0 < block.newMacroElectrons t) = true).val.map (block.electron F ionFrame) +
      (block.wrote F ionFrame fun t => 0 < block.newMacroElectrons t).remaining F ionFrame := by
  rw [map_filter_eq_sum, Block.remaining, Block.remaining, ← Finset.sum_add_distrib]
  refine Finset.sum_congr rfl fun t _ => ?_
  rw [electrons_eq]
  simp only [Block.wrote, Block.electron, Function.update_self, decide_eq_true_eq]
  by_cases h : 0 < block.newMacroElectrons t
  · simp only [if_pos h]
  · rw [if_neg h, if_neg h, if_neg h, Nat.eq_zero_of_not_pos h]

theorem Creating.round (ionBox : ParticlesBox D T α) (hM : MallocMC.Serves M r)
    (h : Creating r electronBox L c goal (block.remaining F ionFrame + rest) block)
    (hex : ∃ t, 0 < block.newMacroElectrons t) (order : Equiv.Perm (Fin T)) :
    ∃ box electronFrame level, KernelIonizeParticles.round F M ionBox c order ionFrame block =
        some (.create ionFrame { block.wrote F ionFrame (fun t => 0 < block.newMacroElectrons t) with
          electronBox := box, electronFrame := some electronFrame, newFrameFillLvl := level }) ∧
      Creating r electronBox L c goal ((block.wrote F ionFrame fun t => 0 < block.newMacroElectrons t).remaining F ionFrame +
        rest) { block.wrote F ionFrame (fun t => 0 < block.newMacroElectrons t) with
          electronBox := box, electronFrame := some electronFrame, newFrameFillLvl := level } := by
  obtain ⟨frames, created, hcreated, hwork, hgoal⟩ := h
  obtain ⟨frame, box, frames', htarget, hcreated', hroom⟩ := hwork.targetFrame hM hcreated
  set wants : Fin T → Bool := fun t => decide (0 < block.newMacroElectrons t) with hwants
  set drawn := drawNumbers wants order block.newFrameFillLvl with hdrawn
  have hne : block.newFrameFillLvl ≠ drawn.1 := fun he => by
    obtain ⟨t, ht⟩ := hex
    exact of_decide_eq_false ((drawNumbers_eq_iff wants order _).mp he t) ht
  obtain ⟨hle, hle'⟩ := drawNumbers_le wants order block.newFrameFillLvl
  obtain ⟨level, frame', box', frames'', hrenew, -, hround, hroom'⟩ :=
    @Created.round _ _ _ _ _ _ _ _ _ _ _ _ (BlockThreads.threadOrder order) _ (block.electron F ionFrame) _ _ _ hM
      (BlockThreads.mem_threadOrder order) hcreated' hroom (drawNumbers_numbered wants order _) hle hle'
  have hdisjoint : ∀ t, (drawn.2 t).any (· < T) = true → (drawn.2 t).any (T ≤ ·) = false := fun t ht => by
    cases hj : drawn.2 t with
    | none => rfl
    | some j =>
      rw [hj] at ht
      simpa using ht
  have hwrites : (fun t => (drawn.2 t).any (· < T) || (drawn.2 t).any (T ≤ ·)) = wants := funext fun t => by
    rw [← isSome_drawNumbers wants order block.newFrameFillLvl t, ← hdrawn]
    cases drawn.2 t with
    | none => rfl
    | some j =>
      simp only [Option.any_some, Option.isSome_some, Bool.or_eq_true, decide_eq_true_eq]
      omega
  have hvalue : ∀ t j, drawn.2 t = some j → T ≤ j →
      (block.wrote F ionFrame fun t => (drawn.2 t).any (· < T)).electron F ionFrame t = block.electron F ionFrame t :=
    fun t j hj hle => by
      simp only [Block.electron, Block.wrote, Function.update_self, hj, Option.any_some]
      rw [if_neg (by simpa using hle)]
  have hfilter : (Finset.univ.filter fun t => (drawn.2 t).isSome = true) = Finset.univ.filter fun t => wants t = true :=
    Finset.filter_congr fun t _ => by rw [isSome_drawNumbers]
  refine ⟨secondFlush (BlockThreads.threadOrder order) drawn.2 (block.electron F ionFrame) frame' box', frame', level, ?_,
    frames'', _, hround, hroom', ?_⟩
  · simp only [KernelIonizeParticles.round]
    rw [if_neg hne, htarget, Option.bind_some]
    dsimp only
    rw [hrenew, Option.map_some, secondFlush_congr hvalue, wrote_wrote hdisjoint, hwrites]
  · rw [hfilter, add_assoc, ← add_assoc (Multiset.map _ _), ← remaining_wrote, hgoal]

/-- The loop over an ion frame writes all electrons of its ions. -/
theorem Creating.ends (hM : MallocMC.Serves M r)
    (h : Creating r electronBox L c goal (block.remaining F ionFrame + rest) block) :
    Ends (next F M ionBox c) (fun phase => ∃ block', phase = .frame (ionBox.previousFrame ionFrame) block' ∧
      Creating r electronBox L c goal rest block' ∧ (∀ t, block'.newMacroElectrons t = 0) ∧
      block'.frameIonizer = block.frameIonizer ∧ ∀ p, p ≠ ionFrame → block'.ions p = block.ions p)
      (.create ionFrame block) := by
  induction hn : ∑ t, block.newMacroElectrons t using Nat.strong_induction_on generalizing block with
  | _ n ih =>
    by_cases hex : ∃ t, 0 < block.newMacroElectrons t
    · refine .step fun order => ?_
      obtain ⟨box, frame, level, hround, h'⟩ := h.round ionBox hM hex order
      have hlt : ∑ t, (block.wrote F ionFrame fun t => 0 < block.newMacroElectrons t).newMacroElectrons t < n := by
        rw [← hn]
        obtain ⟨t, ht⟩ := hex
        refine Finset.sum_lt_sum (fun t _ => ?_) ⟨t, Finset.mem_univ t, ?_⟩
        · simp only [Block.wrote]
          split_ifs <;> omega
        · simp only [Block.wrote, decide_eq_true_eq]
          rw [if_pos ht]
          omega
      refine ⟨_, hround, (ih _ hlt h' rfl).mono ?_⟩
      rintro phase ⟨block', hphase, hcreating, hzero, hfunctor, hions⟩
      exact ⟨block', hphase, hcreating, hzero, hfunctor, fun p hp => (hions p hp).trans (Function.update_of_ne hp _ _)⟩
    · have hzero : ∀ t, block.newMacroElectrons t = 0 := fun t => Nat.eq_zero_of_not_pos fun ht => hex ⟨t, ht⟩
      have hremaining : block.remaining F ionFrame = 0 :=
        Finset.sum_eq_zero fun t _ => by rw [hzero t, electrons]
      rw [hremaining, zero_add] at h
      refine .step fun order => ⟨.frame (ionBox.previousFrame ionFrame) block, ?_, ends_of ⟨block, rfl, h, hzero, rfl,
        fun _ _ => rfl⟩⟩
      have hlevel := (drawNumbers_eq_iff (fun t => decide (0 < block.newMacroElectrons t)) order
        block.newFrameFillLvl).mpr fun t => decide_eq_false (by rw [hzero t]; exact lt_irrefl 0)
      simp only [next, KernelIonizeParticles.round]
      rw [if_pos hlevel]

theorem remaining_ionize (hzero : ∀ t, block.newMacroElectrons t = 0) {frames : List Ptr} :
    newElectrons F ionBox block.ions (ionFrame :: frames) block.frameIonizer =
      (block.ionize F ionBox ionFrame).remaining F ionFrame +
        newElectrons F ionBox block.ions frames (block.ionize F ionBox ionFrame).frameIonizer := by
  have hremaining : (block.ionize F ionBox ionFrame).remaining F ionFrame =
      ((Finset.univ.filter fun t => ionBox.multiMask ionFrame t ≠ 0).val.map fun t =>
        (F.frameIonizer (block.frameIonizer t) (block.ions ionFrame t)).2).bind fun ion => electrons F ion.2 ion.1 := by
    rw [Multiset.bind_map]
    change _ = ∑ t ∈ Finset.univ.filter fun t => ionBox.multiMask ionFrame t ≠ 0, electrons F
      (F.frameIonizer (block.frameIonizer t) (block.ions ionFrame t)).2.2
      (F.frameIonizer (block.frameIonizer t) (block.ions ionFrame t)).2.1
    rw [Finset.sum_filter, Block.remaining]
    refine Finset.sum_congr rfl fun t _ => ?_
    simp only [Block.ionize, Function.update_self]
    split_ifs with hlive
    · rfl
    · rw [hzero t, electrons]
  rw [newElectrons, ionized, Multiset.add_bind, hremaining]
  rfl

theorem ends_frames (hM : MallocMC.Serves M r) {frames : List Ptr}
    (hprevious : ∀ l p rest, frames = l ++ p :: rest → ionBox.previousFrame p = rest.head?) (hnd : frames.Nodup)
    (hzero : ∀ t, block.newMacroElectrons t = 0)
    (h : Creating r electronBox L c goal (newElectrons F ionBox block.ions frames block.frameIonizer) block) :
    Ends (next F M ionBox c) (fun phase => ∃ block', phase = .frame none block' ∧
      Creating r electronBox L c goal 0 block') (.frame frames.head? block) := by
  induction frames generalizing block with
  | nil => exact ends_of ⟨block, rfl, h⟩
  | cons ionFrame frames ih =>
    obtain ⟨hmem, hnd'⟩ := List.nodup_cons.mp hnd
    rw [remaining_ionize hzero] at h
    refine .step fun order => ⟨.create ionFrame (block.ionize F ionBox ionFrame), rfl, ?_⟩
    have hcreate : Creating r electronBox L c goal ((block.ionize F ionBox ionFrame).remaining F ionFrame +
        newElectrons F ionBox block.ions frames (block.ionize F ionBox ionFrame).frameIonizer)
        (block.ionize F ionBox ionFrame) := h
    refine (hcreate.ends hM).bind ?_
    rintro phase ⟨block', rfl, hcreating, hzero', hfunctor, hions⟩
    rw [hprevious [] ionFrame frames rfl]
    refine ih (fun l p rest he => hprevious (ionFrame :: l) p rest (by rw [he, List.cons_append])) hnd' hzero' ?_
    have hions' : ∀ p ∈ frames, block'.ions p = block.ions p := fun p hp => by
      have hne : p ≠ ionFrame := fun he => hmem (he ▸ hp)
      rw [hions p hne]
      exact Function.update_of_ne hne _ _
    rwa [hfunctor, newElectrons, ionized_congr hions']

/-- The block is through. The electrons of all ions are in new frames behind the old ones, and what was there before is as
it was. -/
def Complete (F : Ionizer σ α β) (ionBox : ParticlesBox D T α) (ionFrames : List Ptr) (frameIonizer : Fin T → σ) (r : ℕ)
    (electronBox : ParticlesBox D T β) (L : DataSpace D → List Ptr) (c : DataSpace D) (phase : Phase D T σ α β) : Prop :=
  ∃ block frames, phase = .frame none block ∧
    Created r electronBox L c ∅ frames (newElectrons F ionBox ionBox.attributes ionFrames.reverse frameIonizer)
      block.electronBox ∧
    block.electronBox.contents frames 1 = newElectrons F ionBox ionBox.attributes ionFrames.reverse frameIonizer ∧
    (block.electronBox.contents frames 1).card =
      ((ionized F ionBox ionBox.attributes ionFrames.reverse frameIonizer).map Prod.snd).sum

/-- The kernel ends, and the new electrons are those of the ions. -/
theorem ionizeParticles_spec {ionFrames : DataSpace D → List Ptr} (hM : MallocMC.Serves M r)
    (hions : Linked ionBox ionFrames) (hlinked : Linked electronBox L)
    (hattempts : (electronBox.attempts + 12) % maxTries = r) (frameIonizer : Fin T → σ) :
    Ends (next F M ionBox c) (Complete F ionBox (ionFrames c) frameIonizer r electronBox L c)
      (start ionBox c electronBox frameIonizer) := by
  have hlast : ionBox.lastFramePtr c = (ionFrames c).reverse.head? := by rw [hions.last, List.head?_reverse]
  have hstart : Creating r electronBox L c (newElectrons F ionBox ionBox.attributes (ionFrames c).reverse frameIonizer)
      (newElectrons F ionBox ionBox.attributes (ionFrames c).reverse frameIonizer)
      ⟨ionBox.attributes, electronBox, none, 0, frameIonizer, fun _ => 0⟩ :=
    ⟨[], 0, created_refl hlinked hattempts c ∅, rfl, zero_add _⟩
  rw [start, hlast]
  refine (ends_frames hM (fun l p rest he => hions.mirror.next c l p rest he) (hions.mirror.nodup c) (fun _ => rfl)
    hstart).mono ?_
  rintro phase ⟨block, rfl, frames, created, hcreated, -, hgoal⟩
  rw [add_zero] at hgoal
  subst hgoal
  have hcontents := hcreated.contents_frames hlinked
  exact ⟨block, frames, rfl, hcreated, hcontents, by rw [hcontents, card_newElectrons]⟩

end Spec

/-- An ion with eight electrons that loses three, and frames with one slot. -/
theorem ionizeParticles_three : Ends
    (next ⟨fun s _ => (s, 5, 3), fun ion => (ion, ion)⟩ ParticlesBase.nextFree (singleFrame 8) ![1, 1])
    (Complete ⟨fun s _ => (s, 5, 3), fun ion => (ion, ion)⟩ (singleFrame 8) [0] (fun _ => ()) 12 (empty 2 1 0)
      (fun _ => []) ![1, 1])
    (start (singleFrame 8) ![1, 1] (empty 2 1 0) fun _ => ()) :=
  @ionizeParticles_spec 2 1 Unit ℕ ℕ _ _ _ _ _ _ 12 (Function.update (fun _ => []) ![1, 1] [0]) (fun _ _ _ => rfl)
    (linked_singleFrame 8) (linked_empty 0) rfl fun _ => ()

end PIConGPU.KernelIonizeParticles
