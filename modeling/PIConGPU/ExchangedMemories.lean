import PIConGPU.ParticlesExchange

/-!
# The memories after an exchange

An exchange empties the guard of the sender in its direction and changes no other supercell of it. The receiver has its
own particles and those of the guard.
-/
namespace PIConGPU.ParticlesExchange

open ParticlesBox KernelBashParticles

section Sender

variable {ι α : Type*} [Fintype ι] [DecidableEq ι] {D T maxSize i j : ℕ} {superCellIdx : ι → DataSpace D}
  {kept : DataSpace D → ℕ → Multiset α} {M : MallocMC} {mapper : MappingDescription D} {s s' : State ι D T α}

/-- The supercells of a memory outside those of an exchange have the contents `kept`. -/
def Outside (superCellIdx : ι → DataSpace D) (kept : DataSpace D → ℕ → Multiset α) (box : ParticlesBox D T α)
    (L : DataSpace D → List Ptr) : Prop :=
  Linked box L ∧ ∀ c ∉ Set.range superCellIdx, ∀ k, box.contents (L c) k = kept c k

def Keeps (maxSize i : ℕ) (superCellIdx : ι → DataSpace D) (kept : DataSpace D → ℕ → Multiset α) (m : Memory D T α) :
    SendState ι T → Prop
  | .waitForBash phases => ∃ origin box L calls L', Outside superCellIdx kept box L ∧ (∀ c, ∀ p ∈ L c, origin p = c) ∧
      Bashing maxSize i superCellIdx origin box L calls L' m phases
  | _ => ∃ L, Outside superCellIdx kept m.box L

omit [DecidableEq ι] in
theorem keeps_init {box : ParticlesBox D T α} {L : DataSpace D → List Ptr} (h : Outside superCellIdx kept box L)
    (border : StackExchangeBuffer D α) :
    Keeps maxSize i superCellIdx kept ⟨box, border.setCurrentSize 0⟩ (.waitForBash fun _ => .init) := by
  obtain ⟨origin, horigin⟩ := exists_origin h.1
  exact ⟨origin, box, L, _, L, h, horigin, bashing_start h.1 border⟩

theorem Keeps.step (hT : T ≤ 65535) (hmax : maxSize < 2^32) (hfits : maxSize + Fintype.card ι * T < 2^32)
    (hinj : Function.Injective superCellIdx) (h : Keeps maxSize i superCellIdx kept s.sender s.send)
    (hstep : Step M mapper maxSize i j superCellIdx s s') :
    Keeps maxSize i superCellIdx kept s'.sender s'.send := by
  cases hstep with
  | bash hs hblock =>
    rw [hs] at h
    obtain ⟨origin, box, L, calls, L', houtside, horigin, hbashing⟩ := h
    cases hblock with
    | mk hblock =>
      obtain ⟨calls', L'', hnext, -⟩ := hbashing.step hT hmax hfits hinj houtside.1 horigin hblock
      exact ⟨origin, box, L, calls', L'', houtside, horigin, hnext⟩
  | bashed hs =>
    rw [hs] at h
    obtain ⟨origin, box, L, calls, L', ⟨-, hkept⟩, -, hbashing⟩ := h
    refine ⟨L', hbashing.linked, fun c hc k => ?_⟩
    obtain ⟨hlist, hmask⟩ := hbashing.others c fun b hb => hc ⟨b, hb⟩
    rw [hlist, contents_congr hmask fun p _ => congrFun hbashing.attributes p]
    exact hkept c hc k
  | copied hs =>
    rw [hs] at h
    exact h
  | sent hs =>
    rw [hs] at h
    obtain ⟨L, houtside⟩ := h
    split
    · exact keeps_init houtside _
    · exact ⟨L, houtside⟩
  | sendEnd hs =>
    rw [hs] at h
    exact h
  | receive hs hchannel => exact h
  | insert hs hblock => exact h
  | inserted hs =>
    split
    · exact h
    · exact h

theorem Keeps.run (hT : T ≤ 65535) (hmax : maxSize < 2^32) (hfits : maxSize + Fintype.card ι * T < 2^32)
    (hinj : Function.Injective superCellIdx) (h : Keeps maxSize i superCellIdx kept s.sender s.send)
    (hrun : Relation.ReflTransGen (Step M mapper maxSize i j superCellIdx) s s') :
    Keeps maxSize i superCellIdx kept s'.sender s'.send := by
  induction hrun with
  | refl => exact h
  | tail _ hlast ih => exact ih.step hT hmax hfits hinj hlast

/-- Both memories after a complete exchange. -/
theorem exchanged_boxes (hT : T ≤ 65535) (hpos : 1 ≤ maxSize) (hmax : maxSize < 2^31)
    (hcells : Fintype.card ι * T < 2^31) (hinj : Function.Injective superCellIdx) (m m' : Memory D T α)
    {L L₀ : DataSpace D → List Ptr} (hL : Linked m.box L) (hL₀ : Linked m'.box L₀)
    (hrun : Relation.ReflTransGen (Step M mapper maxSize i j superCellIdx) (start m m') s)
    (hend : s.send = .finished ∧ s.receive = .finished) :
    (∃ L', Linked s.sender.box L' ∧ (∀ b, L' (superCellIdx b) = []) ∧
      ∀ c ∉ Set.range superCellIdx, ∀ k, s.sender.box.contents (L' c) k = m.box.contents (L c) k) ∧
    ∃ L', Linked s.receiver.box L' ∧
      ∀ c, s.receiver.box.contents (L' c) 1 = delivered mapper i j superCellIdx m.box m'.box L L₀ c := by
  have hfits : maxSize + Fintype.card ι * T < 2^32 := by omega
  obtain ⟨hsend, hreceive⟩ := hend
  obtain ⟨sendSteps, hstart⟩ := exchanging_start hL hL₀ M mapper maxSize i j superCellIdx
  have hranked : Ranked M mapper maxSize i j superCellIdx (delivered mapper i j superCellIdx m.box m'.box L L₀)
      (guardParticles superCellIdx m.box L) (start m m') _ := ⟨_, _, _, _, hstart, rfl⟩
  obtain ⟨_, _, _, _, _, h, -⟩ := KernelLaunch.exists_rank (ranked_step hT hpos hmax hfits hinj) hrun hranked
  have hchannel : s.channel = [] := by
    have hflight := h.inFlight
    rw [hreceive] at hflight
    cases hmessages : s.channel with
    | nil => rfl
    | cons message channel =>
      rw [hmessages] at hflight
      cases hflight.1
  have hexchanged := h.exchanged hsend hreceive hchannel
  have hinit : Keeps maxSize i superCellIdx (fun c k => m.box.contents (L c) k)
      (start m m' : State ι D T α).sender (start m m' : State ι D T α).send :=
    keeps_init ⟨hL, fun _ _ _ => rfl⟩ m.border
  have hkeeps := hinit.run hT (hmax.trans (by norm_num)) hfits hinj hrun
  rw [hsend] at hkeeps
  obtain ⟨L₁, hL₁, hkept⟩ := hkeeps
  obtain ⟨L', hL', hempty⟩ := hexchanged.emptied
  obtain rfl : L' = L₁ := hL'.unique hL₁
  exact ⟨⟨L', hL', hempty, hkept⟩, hexchanged.inserted⟩

theorem exists_exchanged (hT : T ≤ 65535) (hpos : 1 ≤ maxSize) (hmax : maxSize < 2^31)
    (hcells : Fintype.card ι * T < 2^31) (hinj : Function.Injective superCellIdx)
    (hM : ∀ k A, (M.malloc k A).isSome = true) (m m' : Memory D T α) {L L₀ : DataSpace D → List Ptr}
    (hL : Linked m.box L) (hL₀ : Linked m'.box L₀) (mapper : MappingDescription D) (i j : ℕ) :
    ∃ s, Relation.ReflTransGen (Step M mapper maxSize i j superCellIdx) (start m m') s ∧
      s.send = .finished ∧ s.receive = .finished := by
  have hfits : maxSize + Fintype.card ι * T < 2^32 := by omega
  obtain ⟨sendSteps, hstart⟩ := exchanging_start hL hL₀ M mapper maxSize i j superCellIdx
  have hranked : Ranked M mapper maxSize i j superCellIdx (delivered mapper i j superCellIdx m.box m'.box L L₀)
      (guardParticles superCellIdx m.box L) (start m m') _ := ⟨_, _, _, _, hstart, rfl⟩
  obtain ⟨s, hrun, hend⟩ := KernelLaunch.exists_terminal (ranked_step hT hpos hmax hfits hinj) hranked
  obtain ⟨_, _, _, _, _, h, -⟩ := KernelLaunch.exists_rank (ranked_step hT hpos hmax hfits hinj) hrun hranked
  rcases h.terminal hend with ⟨-, k, A, hnone⟩ | ⟨hsend, hreceive, -⟩
  · have hsome := hM k A
    rw [hnone] at hsome
    cases hsome
  · exact ⟨s, hrun, hsend, hreceive⟩

end Sender

end PIConGPU.ParticlesExchange
