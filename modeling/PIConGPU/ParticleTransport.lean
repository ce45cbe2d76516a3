import PIConGPU.ExchangedMemories
import PIConGPU.KernelDeleteParticles
import PIConGPU.LocalDomains
import PIConGPU.ShiftParticlesCorrect

/-!
# Transport of particles between the devices

In a time step every device shifts its marked particles to the neighboring supercells. Those that come into the guard
are then sent to the device in this direction, or deleted if there is none. The particles of all devices move as on one
grid of supercells.
-/
namespace PIConGPU.ParticleTransport

open ParticlesBox KernelBashParticles ParticlesExchange ExchangeMapping GridShift

section Communication

variable {d T : ℕ} {α : Type*}

/-- What a device does in one direction: a complete exchange with its neighbor, or the deletion of the guard. -/
inductive Communicate (D : Domain d) (M : MallocMC) (maxSize : ℕ → ℕ) (boxes : ℕ → ParticlesBox (d + 2) T α) :
    ℕ × ℕ → (ℕ → ParticlesBox (d + 2) T α) → Prop
  | exchange {p q i j n : ℕ} {superCellIdx : Fin n → DataSpace (d + 2)} {border border' : StackExchangeBuffer (d + 2) α}
      {s : State (Fin n) (d + 2) T α} (hset : D.hasSendExchange p i = true) (hrank : (D.comm p).ranks i = q)
      (hne : q ≠ p) (hj : Mask.getMirroredExchangeType i = .ok j) (hinj : Function.Injective superCellIdx)
      (hrange : Set.range superCellIdx = D.guardCells p i)
      (hrun : Relation.ReflTransGen (ParticlesExchange.Step M (D.cellDescription q) (maxSize i) i j superCellIdx)
        (start ⟨boxes p, border⟩ ⟨boxes q, border'⟩) s)
      (hend : s.send = .finished ∧ s.receive = .finished) :
    Communicate D M maxSize boxes (p, i) (Function.update (Function.update boxes p s.sender.box) q s.receiver.box)
  | delete {p i : ℕ} {blocks : List (DataSpace (d + 2))} {box : ParticlesBox (d + 2) T α}
      (hset : D.hasSendExchange p i = false) (hblocks : ∀ c, c ∈ blocks ↔ c ∈ D.guardCells p i)
      (hrun : KernelDeleteParticles.run blocks (boxes p) = some box) :
    Communicate D M maxSize boxes (p, i) (Function.update boxes p box)

/-- The communication of all devices, in some order of the exchanges. -/
inductive Run (D : Domain d) (M : MallocMC) (maxSize : ℕ → ℕ) :
    (ℕ → ParticlesBox (d + 2) T α) → List (ℕ × ℕ) → (ℕ → ParticlesBox (d + 2) T α) → Prop
  | nil {boxes : ℕ → ParticlesBox (d + 2) T α} : Run D M maxSize boxes [] boxes
  | cons {boxes boxes₁ boxes' : ℕ → ParticlesBox (d + 2) T α} {e : ℕ × ℕ} {l : List (ℕ × ℕ)}
      (hfirst : Communicate D M maxSize boxes e boxes₁) (hrest : Run D M maxSize boxes₁ l boxes') :
    Run D M maxSize boxes (e :: l) boxes'

variable {D : Domain d} {slides r p q i : ℕ} {M : MallocMC} {maxSize : ℕ → ℕ}
  {S : ℕ → DataSpace (d + 2) → Multiset α} {done : Finset (ℕ × ℕ)} {boxes boxes' : ℕ → ParticlesBox (d + 2) T α}

/-- What a supercell has got in the exchanges that are done. -/
def received (D : Domain d) (S : ℕ → DataSpace (d + 2) → Multiset α) (done : Finset (ℕ × ℕ)) (r : ℕ)
    (s : DataSpace (d + 2)) : Multiset α :=
  ∑ j ∈ (Domain.directions d).erase 0, if (D.sender r j).any fun p => (p, j) ∈ done then
    D.blocks.handed (getRelativeDirections (d + 2)) S r s j else 0

/-- The memories of all devices after some exchanges, if `S` is in their supercells before the first one. -/
def Transporting (D : Domain d) (S : ℕ → DataSpace (d + 2) → Multiset α) (done : Finset (ℕ × ℕ))
    (boxes : ℕ → ParticlesBox (d + 2) T α) : Prop :=
  ∀ r < D.g.size, ∃ L, Linked (boxes r) L ∧
    (∀ s, Inner (D.localSuperCells r) s → (boxes r).contents (L s) 1 = S r s + received D S done r s) ∧
    ∀ i ∈ ExchangeMapping.exchanges (d + 2), ∀ c ∈ D.guardCells r i,
      (boxes r).contents (L c) 1 = if (r, i) ∈ done then 0 else S r c

theorem received_empty (r : ℕ) (s : DataSpace (d + 2)) : received D S ∅ r s = 0 := by
  refine Finset.sum_eq_zero fun j _ => if_neg ?_
  cases D.sender r j <;> simp

theorem received_insert (hdone : (p, i) ∉ done) (hi : i ∈ ExchangeMapping.exchanges (d + 2)) (r : ℕ)
    (s : DataSpace (d + 2)) : received D S (insert (p, i) done) r s = received D S done r s +
      if D.sender r i = some p then D.blocks.handed (getRelativeDirections (d + 2)) S r s i else 0 := by
  have hmem : i ∈ (Domain.directions d).erase 0 :=
    Finset.mem_erase.mpr ⟨by have := hi.1; omega, mem_directions.mpr (.inr hi)⟩
  have hothers : ∀ j ∈ ((Domain.directions d).erase 0).erase i,
      (D.sender r j).any (fun p' => (p', j) ∈ insert (p, i) done) = (D.sender r j).any fun p' => (p', j) ∈ done := by
    intro j hj
    have hne := Finset.ne_of_mem_erase hj
    cases D.sender r j with
    | none => rfl
    | some p' => simp [hne]
  rw [received, received, ← Finset.add_sum_erase _ _ hmem, ← Finset.add_sum_erase _ _ hmem,
    Finset.sum_congr rfl fun j hj => by rw [hothers j hj]]
  cases hsender : D.sender r i with
  | none => simp
  | some p' =>
    by_cases hp : p' = p
    · subst hp
      simp [hdone, add_comm]
    · simp [hp]

theorem sum_delivered {n : ℕ} {superCellIdx : Fin n → DataSpace (d + 2)} (h : D.Valid slides) (hq : q < D.g.size)
    (hi : i ∈ ExchangeMapping.exchanges (d + 2)) (hsender : D.sender q i = some p)
    (hinj : Function.Injective superCellIdx) (hrange : Set.range superCellIdx = D.guardCells p i)
    (C : DataSpace (d + 2) → Multiset α) (s : DataSpace (d + 2)) :
    (∑ b, if ExchangeTarget.dstSuperCell (D.cellDescription q) (superCellIdx b) i (Mask.mirrored i) = s then
      C (superCellIdx b) else 0) =
    if Inner (D.localSuperCells q) s ∧ AtEntry (D.localSuperCells q) (getRelativeDirections (d + 2) i) s then
      C (layerCell (D.localSuperCells p) (getRelativeDirections (d + 2) i) s) else 0 := by
  have hmem : ∀ b, superCellIdx b ∈ D.guardCells p i := fun b => hrange ▸ Set.mem_range_self b
  have hsame := h.localSuperCells_eq hq hi hsender
  split
  case isTrue hs =>
    obtain ⟨b, hb⟩ : layerCell (D.localSuperCells p) (getRelativeDirections (d + 2) i) s ∈ Set.range superCellIdx :=
      hrange ▸ layerCell_mem_guardCells hs.1 hsame
    rw [Finset.sum_eq_single b, if_pos ((dstSuperCell_eq_iff h.dim hi (hmem b)).mpr ⟨hs.2, hb⟩), hb]
    · intro b' _ hne
      refine if_neg fun heq => hne (hinj ?_)
      rw [((dstSuperCell_eq_iff h.dim hi (hmem b')).mp heq).2, hb]
    · exact fun hnot => absurd (Finset.mem_univ b) hnot
  case isFalse hs =>
    refine Finset.sum_eq_zero fun b _ => if_neg fun heq => hs ⟨?_, ?_⟩
    · rw [← heq]
      exact inner_dstSuperCell h.dim hi (h.localSuperCells_pos q) hsame (hmem b)
    · exact ((dstSuperCell_eq_iff h.dim hi (hmem b)).mp heq).1

theorem Transporting.delete {blocks : List (DataSpace (d + 2))} {box : ParticlesBox (d + 2) T α} (h : D.Valid slides)
    (ht : Transporting D S done boxes) (hdone : (p, i) ∉ done) (hi : i ∈ ExchangeMapping.exchanges (d + 2))
    (hset : D.hasSendExchange p i = false) (hblocks : ∀ c, c ∈ blocks ↔ c ∈ D.guardCells p i)
    (hrun : KernelDeleteParticles.run blocks (boxes p) = some box) :
    Transporting D S (insert (p, i) done) (Function.update boxes p box) := by
  intro r hr
  have hnone : D.sender r i ≠ some p := fun hsender => by
    have := (h.of_sender hr hi hsender).2.1
    rw [hset] at this
    cases this
  obtain ⟨L, hL, hinner, hguard⟩ := ht r hr
  have hreceived : ∀ s, received D S (insert (p, i) done) r s = received D S done r s := fun s => by
    rw [received_insert hdone hi, if_neg hnone, add_zero]
  by_cases hp : r = p
  · subst hp
    obtain ⟨box', L', hrun', hdeleted⟩ := KernelDeleteParticles.run_deletes hL blocks
    obtain rfl : box' = box := Option.some.inj (hrun'.symm.trans hrun)
    rw [Function.update_self]
    refine ⟨L', hdeleted.linked, fun s hs => ?_, fun i' hi' c hc => ?_⟩
    · have hnot : s ∉ {c | c ∈ blocks} := fun hmem => not_inner_of_mem_guardCells hi ((hblocks s).mp hmem) hs
      rw [hdeleted.contents_eq hnot, hinner s hs, hreceived]
    · by_cases hii : i' = i
      · subst hii
        rw [hdeleted.emptied c ((hblocks c).mpr hc), contents_nil, if_pos (Finset.mem_insert_self _ _)]
      · have hnot : c ∉ {c | c ∈ blocks} := fun hmem =>
          hii (guardCells_unique (h.localSuperCells_pos r) hi' hi hc ((hblocks c).mp hmem))
        rw [hdeleted.contents_eq hnot, hguard i' hi' c hc]
        simp [hii]
  · rw [Function.update_of_ne hp]
    refine ⟨L, hL, fun s hs => ?_, fun i' hi' c hc => ?_⟩
    · rw [hinner s hs, hreceived]
    · rw [hguard i' hi' c hc]
      simp [hp]

theorem Transporting.exchange {n j : ℕ} {superCellIdx : Fin n → DataSpace (d + 2)}
    {border border' : StackExchangeBuffer (d + 2) α} {s : State (Fin n) (d + 2) T α} (h : D.Valid slides)
    (hT : T ≤ 65535) (hmax : ∀ i, 1 ≤ maxSize i ∧ maxSize i < 2^31)
    (hcells : ∀ r i, (D.guardCells r i).ncard * T < 2^31) (ht : Transporting D S done boxes) (hdone : (p, i) ∉ done)
    (hp : p < D.g.size) (hi : i ∈ ExchangeMapping.exchanges (d + 2)) (hset : D.hasSendExchange p i = true)
    (hrank : (D.comm p).ranks i = q) (hne : q ≠ p) (hj : Mask.getMirroredExchangeType i = .ok j)
    (hinj : Function.Injective superCellIdx) (hrange : Set.range superCellIdx = D.guardCells p i)
    (hrun : Relation.ReflTransGen (ParticlesExchange.Step M (D.cellDescription q) (maxSize i) i j superCellIdx)
      (start ⟨boxes p, border⟩ ⟨boxes q, border'⟩) s)
    (hend : s.send = .finished ∧ s.receive = .finished) :
    Transporting D S (insert (p, i) done)
      (Function.update (Function.update boxes p s.sender.box) q s.receiver.box) := by
  obtain ⟨q', hq, hrank', hsender⟩ := h.sender_of_hasSendExchange hp hi hset
  obtain rfl : q' = q := by exact_mod_cast hrank'.symm.trans hrank
  obtain rfl : Mask.mirrored i = j :=
    Except.ok.inj ((Mask.getMirroredExchangeType_eq hi.1 (h.lt_27 hi)).symm.trans hj)
  have hcard : Fintype.card (Fin n) * T < 2^31 := by
    have hncard : (Set.range superCellIdx).ncard = n := by
      rw [← Set.image_univ, Set.ncard_image_of_injective _ hinj, Set.ncard_univ, Nat.card_fin]
    have := hcells p i
    rwa [← hrange, hncard, ← Fintype.card_fin n] at this
  obtain ⟨L, hL, hinner, hguard⟩ := ht p hp
  obtain ⟨L₀, hL₀, hinner₀, hguard₀⟩ := ht q' hq
  obtain ⟨⟨L', hL', hempty, hkept⟩, L₁, hL₁, hdelivered⟩ :=
    exchanged_boxes hT (hmax i).1 (hmax i).2 hcard hinj ⟨boxes p, border⟩ ⟨boxes q', border'⟩ hL hL₀ hrun hend
  have hcontents : ∀ c, s.receiver.box.contents (L₁ c) 1 = (boxes q').contents (L₀ c) 1 +
      if Inner (D.localSuperCells q') c ∧ AtEntry (D.localSuperCells q') (getRelativeDirections (d + 2) i) c then
        S p (layerCell (D.localSuperCells p) (getRelativeDirections (d + 2) i) c) else 0 := by
    intro c
    rw [hdelivered c, delivered, ← sum_delivered h hq hi hsender hinj hrange]
    congr 1
    refine Finset.sum_congr rfl fun b _ => ?_
    have hmem : superCellIdx b ∈ D.guardCells p i := hrange ▸ Set.mem_range_self b
    split
    · exact (hguard i hi _ hmem).trans (if_neg hdone)
    · rfl
  intro r hr
  have hsender_iff : D.sender r i = some p ↔ r = q' := by
    constructor
    · intro hr'
      have := (h.of_sender hr hi hr').2.2.1
      exact_mod_cast this.symm.trans hrank
    · rintro rfl
      exact hsender
  by_cases hrq : r = q'
  · subst hrq
    rw [Function.update_self]
    refine ⟨L₁, hL₁, fun c hc => ?_, fun i' hi' c hc => ?_⟩
    · rw [hcontents, hinner₀ c hc, received_insert hdone hi, if_pos hsender, add_assoc]
      congr 2
      rw [Blocks.handed, show D.blocks.neighbor r i = some p from hsender, Option.elim_some]
      exact if_congr (and_iff_right hc) rfl rfl
    · rw [hcontents, if_neg fun hin => not_inner_of_mem_guardCells hi' hc hin.1, add_zero, hguard₀ i' hi' c hc]
      simp [hne]
  · rw [Function.update_of_ne hrq]
    have hreceived : ∀ c, received D S (insert (p, i) done) r c = received D S done r c := fun c => by
      rw [received_insert hdone hi, if_neg (mt hsender_iff.mp hrq), add_zero]
    by_cases hrp : r = p
    · subst hrp
      rw [Function.update_self]
      refine ⟨L', hL', fun c hc => ?_, fun i' hi' c hc => ?_⟩
      · have hnot : c ∉ Set.range superCellIdx := fun hmem => not_inner_of_mem_guardCells hi (hrange ▸ hmem) hc
        rw [hkept c hnot, hinner c hc, hreceived]
      · by_cases hii : i' = i
        · subst hii
          obtain ⟨b, rfl⟩ : c ∈ Set.range superCellIdx := hrange ▸ hc
          rw [hempty b, contents_nil, if_pos (Finset.mem_insert_self _ _)]
        · have hnot : c ∉ Set.range superCellIdx := fun hmem =>
            hii (guardCells_unique (h.localSuperCells_pos r) hi' hi hc (hrange ▸ hmem))
          rw [hkept c hnot]
          refine (hguard i' hi' c hc).trans ?_
          simp [hii]
    · rw [Function.update_of_ne hrp]
      obtain ⟨L₂, hL₂, hinner₂, hguard₂⟩ := ht r hr
      refine ⟨L₂, hL₂, fun c hc => ?_, fun i' hi' c hc => ?_⟩
      · rw [hinner₂ c hc, hreceived]
      · rw [hguard₂ i' hi' c hc]
        simp [hrp]

theorem Transporting.step (h : D.Valid slides) (hT : T ≤ 65535) (hmax : ∀ i, 1 ≤ maxSize i ∧ maxSize i < 2^31)
    (hcells : ∀ r i, (D.guardCells r i).ncard * T < 2^31) (ht : Transporting D S done boxes) {e : ℕ × ℕ}
    (hdone : e ∉ done) (he : e ∈ D.exchanges) (hstep : Communicate D M maxSize boxes e boxes') :
    Transporting D S (insert e done) boxes' := by
  cases hstep with
  | exchange hset hrank hne hj hinj hrange hrun hend =>
    exact ht.exchange h hT hmax hcells hdone he.1 he.2 hset hrank hne hj hinj hrange hrun hend
  | delete hset hblocks hrun => exact ht.delete h hdone he.2 hset hblocks hrun

theorem Transporting.run (h : D.Valid slides) (hT : T ≤ 65535) (hmax : ∀ i, 1 ≤ maxSize i ∧ maxSize i < 2^31)
    (hcells : ∀ r i, (D.guardCells r i).ncard * T < 2^31) {l : List (ℕ × ℕ)} (hnodup : l.Nodup)
    (hmem : ∀ e ∈ l, e ∈ D.exchanges) (hnew : ∀ e ∈ l, e ∉ done) (ht : Transporting D S done boxes)
    (hrun : Run D M maxSize boxes l boxes') : Transporting D S (done ∪ l.toFinset) boxes' := by
  induction hrun generalizing done with
  | nil => simpa using ht
  | @cons boxes boxes₁ boxes' e l hfirst hrest ih =>
    obtain ⟨hnot, hnodup⟩ := List.nodup_cons.mp hnodup
    have hstep := ht.step h hT hmax hcells (hnew e List.mem_cons_self) (hmem e List.mem_cons_self) hfirst
    have hunion : done ∪ (e :: l).toFinset = insert e done ∪ l.toFinset := by
      rw [List.toFinset_cons, Finset.union_insert, Finset.insert_union]
    rw [hunion]
    refine ih hnodup (fun e' he' => hmem e' (List.mem_cons_of_mem _ he')) (fun e' he' hin => ?_) hstep
    rcases Finset.mem_insert.mp hin with rfl | hin
    · exact hnot he'
    · exact hnew e' (List.mem_cons_of_mem _ he') hin

/-- Every exchange can be completed. -/
theorem Transporting.exists_step (border : StackExchangeBuffer (d + 2) α) (h : D.Valid slides) (hT : T ≤ 65535)
    (hM : ParticlesBase.MallocMC.Succeeds M) (hmax : ∀ i, 1 ≤ maxSize i ∧ maxSize i < 2^31)
    (hcells : ∀ r i, (D.guardCells r i).ncard * T < 2^31)
    (ht : Transporting D S done boxes) {e : ℕ × ℕ} (he : e ∈ D.exchanges) :
    ∃ boxes', Communicate D M maxSize boxes e boxes' := by
  obtain ⟨p, i⟩ := e
  obtain ⟨hp, hi⟩ : p < D.g.size ∧ i ∈ ExchangeMapping.exchanges (d + 2) := he
  obtain ⟨L, hL, -⟩ := ht p hp
  have hfinite : (D.guardCells p i).Finite := by
    refine Set.Finite.subset (Set.Finite.pi' fun j => Set.finite_Icc 0 (D.localSuperCells p j + 1)) fun c hc j => ?_
    have hcj := mem_guardCells.mp hc j
    have := h.localSuperCells_pos p j
    rcases getRelativeDirections_cases (d + 2) i j with hj | hj | hj
    · rw [hcj.2.2 hj]
      exact ⟨le_rfl, by omega⟩
    · have := hcj.1 hj
      exact ⟨by omega, by omega⟩
    · rw [hcj.2.1 hj]
      exact ⟨by omega, le_rfl⟩
  cases hset : D.hasSendExchange p i with
  | true =>
    obtain ⟨q, hq, hrank, hsender⟩ := h.sender_of_hasSendExchange hp hi hset
    obtain ⟨L₀, hL₀, -⟩ := ht q hq
    have : Finite (D.guardCells p i) := hfinite.to_subtype
    obtain ⟨n, ⟨cell⟩⟩ := Finite.exists_equiv_fin (D.guardCells p i)
    have hinj : Function.Injective fun b => ((cell.symm b : D.guardCells p i) : DataSpace (d + 2)) :=
      Subtype.val_injective.comp cell.symm.injective
    have hrange : Set.range (fun b => ((cell.symm b : D.guardCells p i) : DataSpace (d + 2))) = D.guardCells p i := by
      rw [← Function.comp_def, Set.range_comp, cell.symm.surjective.range_eq, Set.image_univ, Subtype.range_coe]
    have hcard : Fintype.card (Fin n) * T < 2^31 := by
      have hncard : (D.guardCells p i).ncard = n := by
        rw [← Nat.card_coe_set_eq, Nat.card_congr cell, Nat.card_fin]
      have := hcells p i
      rwa [hncard, ← Fintype.card_fin n] at this
    obtain ⟨s, hrun, hend⟩ := exists_exchanged hT (hmax i).1 (hmax i).2 hcard hinj hM ⟨boxes p, border⟩
      ⟨boxes q, border⟩ hL hL₀ (D.cellDescription q) i (Mask.mirrored i)
    exact ⟨_, .exchange hset hrank (h.sender_ne hq hi hsender) (Mask.getMirroredExchangeType_eq hi.1 (h.lt_27 hi)) hinj
      hrange hrun hend⟩
  | false =>
    obtain ⟨box, L', hrun, -⟩ := KernelDeleteParticles.run_deletes hL hfinite.toFinset.toList
    exact ⟨_, .delete hset (fun c => by rw [Finset.mem_toList, Set.Finite.mem_toFinset]) hrun⟩

theorem Transporting.exists_run (border : StackExchangeBuffer (d + 2) α) (h : D.Valid slides) (hT : T ≤ 65535)
    (hM : ParticlesBase.MallocMC.Succeeds M) (hmax : ∀ i, 1 ≤ maxSize i ∧ maxSize i < 2^31)
    (hcells : ∀ r i, (D.guardCells r i).ncard * T < 2^31)
    {l : List (ℕ × ℕ)} (hnodup : l.Nodup) (hmem : ∀ e ∈ l, e ∈ D.exchanges) (hnew : ∀ e ∈ l, e ∉ done)
    (ht : Transporting D S done boxes) : ∃ boxes', Run D M maxSize boxes l boxes' := by
  induction l generalizing done boxes with
  | nil => exact ⟨boxes, .nil⟩
  | cons e l ih =>
    obtain ⟨hnot, hnodup⟩ := List.nodup_cons.mp hnodup
    obtain ⟨boxes₁, hfirst⟩ := ht.exists_step border h hT hM hmax hcells (hmem e List.mem_cons_self)
    have hstep := ht.step h hT hmax hcells (hnew e List.mem_cons_self) (hmem e List.mem_cons_self) hfirst
    obtain ⟨boxes', hrest⟩ := ih hnodup (fun e' he' => hmem e' (List.mem_cons_of_mem _ he')) (fun e' he' hin => by
      rcases Finset.mem_insert.mp hin with rfl | hin
      · exact hnot he'
      · exact hnew e' (List.mem_cons_of_mem _ he') hin) hstep
    exact ⟨boxes', .cons hfirst hrest⟩

end Communication

section TimeStep

variable {d T : ℕ} {α : Type*}

/-- The memories hold the particles of the global grid, marked with the directions in which they leave. -/
def Holds (D : Domain d) (N : DataSpace (d + 2) → ℕ → Multiset α) (boxes : ℕ → ParticlesBox (d + 2) T α) : Prop :=
  ∀ r < D.g.size, ∃ L, ParticlesBase.Entry (D.mapper r) (boxes r) L ∧
    (∀ s, Inner (D.localSuperCells r) s → ∀ i ∈ Domain.directions d,
      (boxes r).contents (L s) (i + 1) = N (D.blocks.position r s) i) ∧
    ∀ s, ¬ Inner (D.localSuperCells r) s → (boxes r).contents (L s) 1 = 0

/-- The memories hold the particles of the global grid in their new supercells, and the guards are empty. -/
def Arrived (D : Domain d) (X : DataSpace (d + 2) → Multiset α) (boxes : ℕ → ParticlesBox (d + 2) T α) : Prop :=
  ∀ r < D.g.size, ∃ L, Linked (boxes r) L ∧
    (∀ s, Inner (D.localSuperCells r) s → (boxes r).contents (L s) 1 = X (D.blocks.position r s)) ∧
    ∀ i ∈ ExchangeMapping.exchanges (d + 2), ∀ c ∈ D.guardCells r i, (boxes r).contents (L c) 1 = 0

variable {D : Domain d} {slides r p i : ℕ} {M : MallocMC} {maxSize : ℕ → ℕ}
  {N : DataSpace (d + 2) → ℕ → Multiset α} {boxes : ℕ → ParticlesBox (d + 2) T α}

/-- What the shift brings to the supercells of a device and of its guard. -/
def afterShift (D : Domain d) (N : DataSpace (d + 2) → ℕ → Multiset α) : ℕ → DataSpace (d + 2) → Multiset α :=
  D.blocks.moved (Domain.directions d) (getRelativeDirections (d + 2)) fun r s i => N (D.blocks.position r s) i

theorem inArea_iff {s : DataSpace (d + 2)} :
    StrideMapping.inArea (D.mapper r) s ↔ Inner (D.localSuperCells r) s := by
  refine forall_congr' fun j => ?_
  simp only [Domain.mapper, Domain.cellDescription]
  omega

theorem shifted_contents (hM : ParticlesBase.MallocMC.Succeeds M) (hE : numberOfExchanges (d + 2) ≤ T)
    (hT : 2 * T ≤ 65536) {sched : DataSpace (d + 2) → PhaseSchedule (d + 2) T}
    (hvalid : ParticlesBase.ValidSchedule (D.mapper r) sched) (hfew : ∀ X i, 1 ≤ i → (N X i).card < T)
    {box : ParticlesBox (d + 2) T α} {L : DataSpace (d + 2) → List Ptr}
    (hentry : ParticlesBase.Entry (D.mapper r) box L)
    (hinner : ∀ s, Inner (D.localSuperCells r) s → ∀ i ∈ Domain.directions d,
      box.contents (L s) (i + 1) = N (D.blocks.position r s) i)
    (houter : ∀ s, ¬ Inner (D.localSuperCells r) s → box.contents (L s) 1 = 0) :
    ∃ box' L', ParticlesBase.shiftParticles M (D.mapper r) sched box = some box' ∧ Linked box' L' ∧
      ∀ s, box'.contents (L' s) 1 = afterShift D N r s := by
  have hpos : 0 < T := (Nat.pow_pos (by norm_num) : 0 < numberOfExchanges (d + 2)).trans_le hE
  have hmarked : ∀ s m, 2 ≤ m → (box.contents (L s) m).card < T := by
    intro s m hm
    by_cases hs : Inner (D.localSuperCells r) s
    · by_cases hlt : m - 1 ∈ Domain.directions d
      · have := hinner s hs (m - 1) hlt
        rw [Nat.sub_add_cancel (by omega)] at this
        rw [this]
        exact hfew _ _ (by omega)
      · rw [hentry.contents_eq_zero s (by rw [Finset.mem_range] at hlt; omega)]
        simpa using hpos
    · have hzero : box.contents (L s) m = 0 := by
        by_contra hne
        obtain ⟨q, hq, t, ht⟩ := ParticlesBase.exists_of_contents_ne_zero hne
        exact hs (inArea_iff.mp (hentry.marked s q hq t (by omega)).1)
      rw [hzero]
      simpa using hpos
  have hsafe := ParticlesBase.phasesSafe_of_few hM hE hT hvalid hentry hmarked
  obtain ⟨box', L', P, hrun, hstate, hP⟩ := ParticlesBase.shiftParticles_state hM hE hT hvalid hentry hsafe
  refine ⟨box', L', hrun, hstate.linked, fun s => ?_⟩
  have hzero : box.contents (L s) 1 = if Inner (D.localSuperCells r) s then N (D.blocks.position r s) 0 else 0 := by
    split
    case isTrue hs => exact hinner s hs 0 (mem_directions.mpr (.inl rfl))
    case isFalse hs => exact houter s hs
  have hterm : ∀ j ∈ Finset.range (numberOfExchanges (d + 2) - 1), ∀ s,
      (if s ∈ P then box.contents (L s) (j + 2) else 0) =
        if Inner (D.localSuperCells r) s then N (D.blocks.position r s) (j + 1) else 0 := by
    intro j hj s
    have hmem : j + 1 ∈ Domain.directions d := by
      rw [Finset.mem_range] at hj ⊢
      omega
    by_cases hs : Inner (D.localSuperCells r) s
    · rw [if_pos hs, if_pos ((hP s).mpr (inArea_iff.mpr hs))]
      exact hinner s hs (j + 1) hmem
    · rw [if_neg hs, if_neg fun hin => hs (inArea_iff.mp ((hP s).mp hin))]
  have hE' : numberOfExchanges (d + 2) = numberOfExchanges (d + 2) - 1 + 1 :=
    (Nat.sub_add_cancel (Nat.pow_pos (by norm_num))).symm
  rw [hstate.contents_eq s 1 le_rfl, ParticlesBase.shiftedN, if_pos rfl, afterShift, Blocks.moved, Domain.directions,
    hE', Finset.sum_range_succ', add_comm, getRelativeDirections_zero, sub_zero]
  exact congrArg₂ (· + ·) (Finset.sum_congr rfl fun j hj => hterm j hj _) hzero

theorem received_all (h : D.Valid slides) (hN : Global D N) {done : Finset (ℕ × ℕ)}
    (hdone : ∀ e ∈ D.exchanges, e ∈ done) {r : ℕ} (hr : r < D.g.size) {s : DataSpace (d + 2)}
    (hs : Inner (D.localSuperCells r) s) :
    afterShift D N r s + received D (afterShift D N) done r s = globalStep N (D.blocks.position r s) := by
  have hzero : (0 : ℕ) ∈ Domain.directions d := mem_directions.mpr (.inl rfl)
  have hown : afterShift D N r s = D.blocks.handed (getRelativeDirections (d + 2)) (afterShift D N) r s 0 := by
    rw [Blocks.handed, show D.blocks.neighbor r 0 = some r from rfl, Option.elim_some, getRelativeDirections_zero,
      if_pos (atEntry_zero _ _), layerCell_zero]
  have hreceived : received D (afterShift D N) done r s = ∑ j ∈ (Domain.directions d).erase 0,
      D.blocks.handed (getRelativeDirections (d + 2)) (afterShift D N) r s j := by
    refine Finset.sum_congr rfl fun j hj => ?_
    obtain ⟨hne, hj⟩ := Finset.mem_erase.mp hj
    have hj := (mem_directions.mp hj).resolve_left hne
    cases hsender : D.sender r j with
    | none => simp [Blocks.handed, show D.blocks.neighbor r j = none from hsender]
    | some p =>
      refine if_pos ?_
      rw [Option.any_some, decide_eq_true_eq]
      exact hdone (p, j) ⟨(h.of_sender hr hj hsender).1, hj⟩
  rw [hown, hreceived, Finset.add_sum_erase _ _ hzero]
  exact (h.fits hN).sum_handed (enumerates_directions d) (fun _ _ _ _ _ _ => rfl) hr hs

/-- A time step of all devices moves the particles as one step of the whole grid does: the shift of every device, and
after it all exchanges, one after the other in any order. The exchanges can be completed. In no direction may so many
particles leave a supercell that they fill a frame. -/
theorem Domain.Valid.transport (h : D.Valid slides) (hM : ParticlesBase.MallocMC.Succeeds M)
    (hE : numberOfExchanges (d + 2) ≤ T) (hT : 2 * T ≤ 65536) (hmax : ∀ i, 1 ≤ maxSize i ∧ maxSize i < 2^31)
    (hcells : ∀ r i, (D.guardCells r i).ncard * T < 2^31) (border : StackExchangeBuffer (d + 2) α)
    {sched : ℕ → DataSpace (d + 2) → PhaseSchedule (d + 2) T}
    (hvalid : ∀ r, ParticlesBase.ValidSchedule (D.mapper r) (sched r)) (hN : Global D N)
    (hfew : ∀ X i, 1 ≤ i → (N X i).card < T) (hboxes : Holds D N boxes) :
    ∃ shifted : ℕ → ParticlesBox (d + 2) T α,
      (∀ r < D.g.size, ParticlesBase.shiftParticles M (D.mapper r) (sched r) (boxes r) = some (shifted r)) ∧
      ∀ l : List (ℕ × ℕ), l.Nodup → (∀ e, e ∈ l ↔ e ∈ D.exchanges) →
        (∃ boxes', Run D M maxSize shifted l boxes') ∧
        ∀ boxes', Run D M maxSize shifted l boxes' → Arrived D (globalStep N) boxes' := by
  have hstart : ∀ r, ∃ box, r < D.g.size → ∃ L, ParticlesBase.shiftParticles M (D.mapper r) (sched r) (boxes r) =
      some box ∧ Linked box L ∧ ∀ s, box.contents (L s) 1 = afterShift D N r s := by
    intro r
    by_cases hr : r < D.g.size
    · obtain ⟨L, hentry, hinner, houter⟩ := hboxes r hr
      obtain ⟨box, L', hrun, hspec⟩ := shifted_contents hM hE hT (hvalid r) hfew hentry hinner houter
      exact ⟨box, fun _ => ⟨L', hrun, hspec⟩⟩
    · exact ⟨boxes r, fun hr' => absurd hr' hr⟩
  choose shifted hshifted using hstart
  have hT' : T ≤ 65535 := by omega
  have htransporting : Transporting D (afterShift D N) ∅ shifted := by
    intro r hr
    obtain ⟨L, -, hlinked, hcontents⟩ := hshifted r hr
    exact ⟨L, hlinked, fun s _ => by rw [hcontents, received_empty, add_zero], fun i _ c _ => hcontents c⟩
  refine ⟨shifted, fun r hr => ?_, fun l hnodup hl => ⟨?_, fun boxes' hrun => ?_⟩⟩
  · obtain ⟨L, hrun, -⟩ := hshifted r hr
    exact hrun
  · exact htransporting.exists_run border h hT' hM hmax hcells hnodup (fun e he => (hl e).mp he) fun e _ =>
      Finset.notMem_empty e
  · have hend := htransporting.run h hT' hmax hcells hnodup (fun e he => (hl e).mp he)
      (fun e _ => Finset.notMem_empty e) hrun
    have hdone : ∀ e ∈ D.exchanges, e ∈ ∅ ∪ l.toFinset := fun e he => by
      rw [Finset.empty_union, List.mem_toFinset]
      exact (hl e).mpr he
    intro r hr
    obtain ⟨L, hlinked, hinner, hguard⟩ := hend r hr
    refine ⟨L, hlinked, fun s hs => ?_, fun i hi c hc => ?_⟩
    · rw [hinner s hs]
      exact received_all h hN hdone hr hs
    · rw [hguard i hi c hc, if_pos (hdone (r, i) ⟨hr, hi⟩)]

end TimeStep

section Example

open ParticlesBase

theorem columnOfTwo_pos : ∀ j, 0 < (![1, 2] : Fin 2 → ℕ) j := by
  decide

def columnOfTwo : ProcessGrid 2 := ⟨![1, 2], ![false, true], columnOfTwo_pos⟩

theorem columnOfTwo_periodic : ∀ j, columnOfTwo.periodic j = true → 2 ≤ columnOfTwo.dims j := by
  decide

def columnDomain (comm : ℕ → Communicator 2) : Domain 0 := ⟨columnOfTwo, comm, fun _ _ => 3⟩

/-- One particle, which leaves the first device through its side at the bottom of the axis. -/
def oneParticle (X : DataSpace 2) (i : ℕ) : Multiset ℕ := if X 0 = 2 ∧ X 1 % 6 = 0 ∧ i = 8 then {36} else 0

def columnBoxes (r : ℕ) : ParticlesBox 2 9 ℕ := overflowBox false (r == 0)

variable {comm : ℕ → Communicator 2} (hcomm : ∀ r, Communicator.afterSlides columnOfTwo r 0 = some (comm r))

theorem columnDomain_global : Global (columnDomain comm) oneParticle where
  periodic X X' h := by
    have h0 : X 0 = X' 0 := (h 0).resolve_right fun hperiodic => by cases hperiodic.1
    have h1 : X 1 % 6 = X' 1 % 6 := by
      rcases h 1 with heq | hmod
      · rw [heq]
      · exact hmod.2
    funext i
    rw [oneParticle, oneParticle, h0, h1]
  outside X j hperiodic hrange i := by
    refine if_neg fun hX => ?_
    match j with
    | 0 => exact hrange ⟨hX.1.symm ▸ (by decide), hX.1.symm ▸ (by decide : (2 : ℤ) < 3)⟩
    | 1 => cases hperiodic

theorem oneParticle_few (X : DataSpace 2) (i : ℕ) : (oneParticle X i).card < 9 := by
  rw [oneParticle]
  split <;> decide

theorem columnDomain_cells (r i : ℕ) : ((columnDomain comm).guardCells r i).ncard * 9 < 2^31 := by
  have hsub : (columnDomain comm).guardCells r i ⊆ ↑(Fintype.piFinset fun _ : Fin 2 => Finset.Icc (0 : ℤ) 4) := by
    intro c hc
    rw [Finset.mem_coe, Fintype.mem_piFinset]
    intro j
    have hcj := mem_guardCells.mp hc j
    have hsize : (columnDomain comm).localSuperCells r j = 3 := rfl
    rw [hsize] at hcj
    rw [Finset.mem_Icc]
    rcases getRelativeDirections_cases 2 i j with hj | hj | hj
    · have := hcj.2.2 hj
      omega
    · have := hcj.1 hj
      omega
    · have := hcj.2.1 hj
      omega
  have hle := Set.ncard_le_ncard hsub (Finset.finite_toSet _)
  rw [Set.ncard_coe_finset, Fintype.card_piFinset] at hle
  have hcard : ∏ _ : Fin 2, (Finset.Icc (0 : ℤ) 4).card = 25 := by decide
  omega

theorem columnDomain_mapper (r : ℕ) : (columnDomain comm).mapper r = smallMapper := by
  rw [Domain.mapper, smallMapper]
  congr 1
  exact funext (Fin.forall_fin_two.mpr ⟨rfl, rfl⟩)

include hcomm

theorem columnDomain_valid : (columnDomain comm).Valid 0 where
  dim := Nat.zero_le 1
  comm_eq := hcomm
  superCells_pos _ _ := (by decide : (1 : ℤ) ≤ 3)
  periodic := columnOfTwo_periodic

theorem columnDomain_coordinates {r : ℕ} (hr : r < 2) : (comm r).coordinates = ![0, (r : ℤ)] := by
  have hu := (columnDomain_valid hcomm).updated r
  have hsize : r < columnOfTwo.size := hr
  funext j
  have hcoord : (comm r).coordinates j = Communicator.rotatedCoords columnOfTwo r 0 j := congrFun hu.coordinates_eq j
  rw [hcoord]
  match j with
  | 0 =>
    rw [Communicator.rotatedCoords_of_ne _ _ _ (by decide)]
    interval_cases r <;> decide
  | 1 =>
    rw [Communicator.rotatedCoords_one _ hsize]
    interval_cases r <;> decide

theorem columnDomain_position {r : ℕ} (hr : r < 2) (s : DataSpace 2) :
    (columnDomain comm).blocks.position r s = ![s 0 - 1, 3 * r + s 1 - 1] := by
  have hcoords := columnDomain_coordinates hcomm hr
  funext j
  change (∑ _ ∈ Finset.range ((comm r).coordinates j).toNat, (3 : ℤ)) + s j - 1 = _
  rw [hcoords]
  match j with
  | 0 => simp
  | 1 => simp [mul_comm]

omit hcomm in
theorem columnBoxes_contents : ∀ i ∈ Finset.range 9,
    (columnBoxes 0).contents (overflowLists false true ![3, 1]) (i + 1) = oneParticle ![2, 0] i := by
  decide +kernel

omit hcomm in
theorem columnLists_eq_nil {r : ℕ} {s : DataSpace 2} (hs : r ≠ 0 ∨ s ≠ ![3, 1]) :
    overflowLists false (r == 0) s = [] := by
  rcases overflowLists_cases false (r == 0) s with h | ⟨rfl, h⟩ | ⟨rfl, h⟩
  · exact h
  · cases hzero : r == 0 <;> rw [hzero] at h <;> cases h
  · have hr : r ≠ 0 := hs.resolve_right fun hne => hne rfl
    rw [beq_eq_false_iff_ne.mpr hr] at h
    cases h

theorem columnBoxes_holds : Holds (columnDomain comm) oneParticle columnBoxes := by
  intro r hr
  have hr : r < 2 := hr
  refine ⟨overflowLists false (r == 0), ?_, fun s hs i hi => ?_, fun s hs => ?_⟩
  · rw [columnDomain_mapper]
    exact overflow_entry false (r == 0)
  · rw [columnDomain_position hcomm hr]
    have hs0 : 1 ≤ s 0 ∧ s 0 ≤ 3 := hs 0
    have hs1 : 1 ≤ s 1 ∧ s 1 ≤ 3 := hs 1
    by_cases hcell : r = 0 ∧ s = ![3, 1]
    · obtain ⟨rfl, rfl⟩ := hcell
      exact columnBoxes_contents i hi
    · rw [columnLists_eq_nil (not_and_or.mp hcell), contents_nil]
      refine (if_neg fun hX => hcell ?_).symm
      obtain ⟨h0, h1, -⟩ : s 0 - 1 = 2 ∧ (3 * (r : ℤ) + s 1 - 1) % 6 = 0 ∧ i = 8 := hX
      refine ⟨by omega, funext fun j => ?_⟩
      match j with
      | 0 => exact (by omega : s 0 = 3)
      | 1 => exact (by omega : s 1 = 1)
  · rw [columnLists_eq_nil, contents_nil]
    right
    rintro rfl
    refine hs fun j => ?_
    match j with
    | 0 => exact (by decide : (1 : ℤ) ≤ 3 ∧ (3 : ℤ) ≤ 3)
    | 1 => exact (by decide : (1 : ℤ) ≤ 1 ∧ (1 : ℤ) ≤ 3)

omit hcomm in
theorem oneParticle_arrives : globalStep (d := 0) oneParticle ![1, 5] = {36} := by
  decide +kernel

/-- All devices and directions in the order of the loops. -/
def columnExchanges : List (ℕ × ℕ) := List.range 2 ×ˢ List.range' 1 8

omit hcomm in
theorem mem_columnExchanges (e : ℕ × ℕ) : e ∈ columnExchanges ↔ e ∈ (columnDomain comm).exchanges := by
  rw [columnExchanges, List.mem_product, List.mem_range, List.mem_range'_1]
  exact Iff.rfl

end Example

theorem transport_column : ∃ (comm : ℕ → Communicator 2) (shifted boxes : ℕ → ParticlesBox 2 9 ℕ),
    (∀ r < 2, ParticlesBase.shiftParticles ParticlesBase.nextFree ParticlesBase.smallMapper
      (fun _ => ParticlesBase.oneBlock) (columnBoxes r) = some (shifted r)) ∧
    Run (columnDomain comm) ParticlesBase.nextFree (fun _ => 1) shifted columnExchanges boxes ∧
    ∃ L, Linked (boxes 1) L ∧ (boxes 1).contents (L ![2, 3]) 1 = {36} := by
  obtain ⟨comm, hcomm⟩ : ∃ comm : ℕ → Communicator 2, ∀ r, Communicator.afterSlides columnOfTwo r 0 = some (comm r) :=
    ⟨_, fun r => (Communicator.afterSlides_spec (Nat.zero_le 1) columnOfTwo r 0).choose_spec.1⟩
  have hvalid := columnDomain_valid hcomm
  have hschedule : ∀ r, ParticlesBase.ValidSchedule ((columnDomain comm).mapper r) fun _ => ParticlesBase.oneBlock :=
    fun r => columnDomain_mapper r ▸ ParticlesBase.oneBlock_valid
  have hmax : ∀ i : ℕ, 1 ≤ (fun _ => 1 : ℕ → ℕ) i ∧ (fun _ => 1 : ℕ → ℕ) i < 2^31 :=
    fun _ => ⟨le_rfl, (by decide : 1 < 2^31)⟩
  obtain ⟨shifted, hshift, hrest⟩ := hvalid.transport ParticlesBase.nextFree_succeeds (by decide) (by decide) hmax
    columnDomain_cells ⟨ExchangePush.empty 1, id⟩ hschedule columnDomain_global
    (fun X i _ => oneParticle_few X i) (columnBoxes_holds hcomm)
  obtain ⟨⟨boxes, hrun⟩, harrived⟩ := hrest columnExchanges (by decide) (mem_columnExchanges)
  obtain ⟨L, hL, hinner, -⟩ := harrived boxes hrun 1 (by decide : 1 < columnOfTwo.size)
  refine ⟨comm, shifted, boxes, fun r hr => ?_, hrun, L, hL, ?_⟩
  · have hmapper : (columnDomain comm).mapper r = ParticlesBase.smallMapper := columnDomain_mapper r
    rw [← hmapper]
    exact hshift r hr
  · rw [hinner, columnDomain_position hcomm (by decide)]
    · exact oneParticle_arrives
    · intro j
      match j with
      | 0 => exact (by decide : (1 : ℤ) ≤ 2 ∧ (2 : ℤ) ≤ 3)
      | 1 => exact (by decide : (1 : ℤ) ≤ 3 ∧ (3 : ℤ) ≤ 3)

end PIConGPU.ParticleTransport
