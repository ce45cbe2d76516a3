import PIConGPU.ScatterInvariant

/-!
# Memory safety of the device heap

For requests of less than a page: in every run, whatever the threads do in which order, the memory in use is disjoint
and lies on the pages, and nobody but the callers writes to it.
-/
namespace PIConGPU.Scatter

open UsageCounter HeapProperties

section Steps

variable {P : HeapProperties} {memsize lane : ℕ} {h : Heap} {page mem c segment spot filllevel i tries : ℕ}
  {mask : BitVec 32} {k : Search} {τ : Type*} [Fintype τ] [DecidableEq τ] {phases : τ → Phase} {t : τ}

/-- A fill level at which a page still has free chunks is no lock. -/
theorem capacity_le_pagesize (hP : P.Valid) (hc : P.ChunkSize c) : P.capacity c ≤ P.pagesize :=
  (Nat.le_mul_of_pos_right _ hc.pos).trans (hP.capacity_mul_le hc.pos)

theorem usePage_cases (hP : P.Valid) (hc : P.ChunkSize c) (k : Search) (lane filllevel : ℕ) :
    P.usePage lane k c filllevel = .giveUp k ∨
      filllevel < P.pagesize ∧ ∃ step, P.usePage lane k c filllevel = .claim k c step ∧ step.Ok P c := by
  have hcapacity := capacity_le_pagesize hP hc
  unfold usePage
  unfold capacity at hcapacity
  by_cases hsmall : c ≤ P.hierarchyThreshold
  · rw [if_pos hsmall] at hcapacity ⊢
    split
    next hlt => exact .inr ⟨hlt.trans_le hcapacity, _, rfl, hsmall⟩
    next => exact .inl rfl
  · rw [if_neg hsmall] at hcapacity ⊢
    split
    next hlt => exact .inr ⟨hlt.trans_le hcapacity, _, rfl, hsmall, Nat.mod_lt _ (Nat.zero_lt_of_lt hlt)⟩
    next => exact .inl rfl

theorem enterSegment_cases (hsmall : c ≤ P.hierarchyThreshold) (hsegment : segment < P.segments c) (k : Search)
    (lane : ℕ) (mask : BitVec 32) (tries i : ℕ) :
    P.enterSegment lane k c mask tries i segment = .giveUp k ∨
      ∃ step, P.enterSegment lane k c mask tries i segment = .claim k c step ∧ step.Ok P c := by
  unfold enterSegment
  split
  next => exact .inr ⟨_, rfl, hsmall, hsegment, Nat.mod_lt _ (spots_pos hsegment)⟩
  next => exact .inl rfl

theorem segments_pos (hsmall : c ≤ P.hierarchyThreshold) (hc : P.ChunkSize c) : 0 < P.segments c := by
  have hsize : segmentsize c ≤ P.pagesize := by
    have hc0 := hc.pos
    unfold hierarchyThreshold at hsmall
    unfold segmentsize
    omega
  have hpos : 0 < P.pagesize / segmentsize c := Nat.div_pos hsize (by unfold segmentsize; omega)
  unfold segments fullsegments
  split <;> omega

theorem addChunkHierarchy_cases (hsmall : c ≤ P.hierarchyThreshold) (hc : P.ChunkSize c) (k : Search) (lane : ℕ)
    (mask : BitVec 32) : P.addChunkHierarchy lane k c mask = .giveUp k ∨
      ∃ step, P.addChunkHierarchy lane k c mask = .claim k c step ∧ step.Ok P c := by
  have hpos := segments_pos hsmall hc
  refine enterSegment_cases hsmall ?_ k lane mask _ 0
  split
  · exact nextspot_lt _ _ hpos
  · exact Nat.mod_lt _ hpos

theorem visit_lt (hb : k.b < P.accessblocks) (hblock : k.ptetry < (k.b + 1) * P.pagesperblock memsize) :
    k.ptetry / P.regionsize < P.numregions memsize := by
  have hle : (k.b + 1) * P.pagesperblock memsize ≤ P.numpages memsize :=
    (Nat.mul_le_mul_right _ hb).trans ((Nat.mul_comm _ _).trans_le (Nat.div_mul_le_self _ _))
  exact Nat.div_lt_of_lt_mul ((hblock.trans_le hle).trans_eq (Nat.mul_comm _ _))

theorem ptetry_lt (hregion : k.region < P.numregions memsize) (hlt : k.ptetry < (k.region + 1) * P.regionsize) :
    k.ptetry < P.numpages memsize :=
  hlt.trans_le (Nat.mul_le_mul_right _ hregion)

/-- An admitted thread that gives up still has to leave. -/
theorem Consistent.claimNext (hP : P.Valid) (hs : Consistent P memsize h phases) {step : Claim}
    (ht : phases t = .claim k c step) {phase : Phase}
    (hphase : phase = .giveUp k ∨ ∃ step', phase = .claim k c step' ∧ step'.Ok P c) :
    Consistent P memsize h (Function.update phases t phase) := by
  obtain ⟨hpage, hchunk, -⟩ : Phase.Ok P memsize h (.claim k c step) := ht ▸ hs.ok t
  rcases hphase with rfl | ⟨step', rfl, hstep⟩
  · refine hs.advance hP (fun page => ?_) (fun mem hmem => absurd hmem Bool.false_ne_true) hpage.1
    rw [ht]
    simp only [Phase.role]
    split
    · exact .dismiss
    · exact .same
  · refine hs.advance hP (fun page => ?_) (fun mem hmem => absurd hmem Bool.false_ne_true) ⟨hpage, hchunk, hstep⟩
    rw [ht]
    exact .same

theorem Consistent.increase (hP : P.Valid) (hthreads : Fintype.card τ + P.pagesize + 1025 < 2^32)
    (hs : Consistent P memsize h phases) (ht : phases t = .tryUsePage k c) :
    Consistent P memsize (h.atomicAdd k.ptetry 1) (Function.update phases t (.recheck k c (h.count k.ptetry))) := by
  have hok : Phase.Ok P memsize h (.tryUsePage k c) := ht ▸ hs.ok t
  have hle := (hs.counts k.ptetry).le
  have hchunks := hs.chunksOn_le hP k.ptetry
  have hcount : (h.count k.ptetry + 1) % 2^32 = h.count k.ptetry + 1 := Nat.mod_eq_of_lt (by omega)
  rw [Heap.atomicAdd, hcount]
  refine hs.changeCount hP ?_ (fun q hq => ?_) (fun mem hmem => absurd hmem Bool.false_ne_true) hok
  · rw [ht]
    simp only [Phase.role, if_true]
    split
    next hlt => exact .join hlt
    next => exact .enter
  · rw [ht]
    simp only [Phase.role, if_neg (Ne.symm hq)]

theorem atomicSub_eq (hlt : h.count page < 2^32) {n : ℕ} (hn : n ≤ h.count page) :
    h.atomicSub page n = h.setCount page (h.count page - n) := by
  rw [Heap.atomicSub]
  congr 1
  omega

theorem Consistent.recheck (hP : P.Valid) (hs : Consistent P memsize h phases)
    (ht : phases t = .recheck k c filllevel) :
    Consistent P memsize h (Function.update phases t
      (if h.chunksize k.ptetry = c then P.usePage lane k c filllevel else .giveUp k)) := by
  have hok : Phase.Ok P memsize h (.recheck k c filllevel) := ht ▸ hs.ok t
  have hgiveUp : Consistent P memsize h (Function.update phases t (.giveUp k)) := by
    refine hs.advance hP (fun page => ?_) (fun mem hmem => absurd hmem Bool.false_ne_true) hok.1
    rw [ht]
    simp only [Phase.role]
    split_ifs
    · exact .dismiss
    · exact .same
    · exact .same
  split
  next hchunk =>
    rcases usePage_cases hP hok.2.2.2 k lane filllevel with hphase | ⟨hlt, step, hphase, hstep⟩
    · rw [hphase]
      exact hgiveUp
    · rw [hphase]
      refine hs.advance hP (fun page => ?_) (fun mem hmem => absurd hmem Bool.false_ne_true) ⟨hok, hchunk, hstep⟩
      rw [ht]
      simp only [Phase.role, if_pos hlt]
      exact .same
  next => exact hgiveUp

theorem Consistent.giveUp (hP : P.Valid) (hthreads : Fintype.card τ + P.pagesize + 1024 < 2^32)
    (hs : Consistent P memsize h phases) (ht : phases t = .giveUp k) :
    Consistent P memsize (h.atomicSub k.ptetry 1) (Function.update phases t (.scan k.next)) := by
  have hok : Phase.Ok P memsize h (.giveUp k) := ht ▸ hs.ok t
  have hrole : (phases t).role P k.ptetry = .entered := by rw [ht, Phase.role, if_pos rfl]
  rw [atomicSub_eq (hs.count_lt hP hthreads _) ((hs.counts k.ptetry).pos (.inl hrole))]
  refine hs.changeCount hP ?_ (fun q hq => ?_) (fun mem hmem => absurd hmem Bool.false_ne_true) hok
  · rw [hrole]
    exact .leave
  · rw [ht]
    simp only [Phase.role, if_neg (Ne.symm hq)]

/-- A page without chunks in use changes its chunk size. -/
theorem Consistent.setChunksize (hs : Consistent P memsize h phases) {phase : Phase}
    (hc : c = 0 ∨ P.ChunkSize c) (hunused : ∀ mem, mem / P.pagesize = page → owners h phases mem = 0)
    (hrole : ∀ q, phase.role P q = (phases t).role P q) (hfrees : ∀ mem, phase.frees mem = (phases t).frees mem)
    (hok : ∀ u, (Function.update phases t phase u).Ok P memsize (h.setChunksize page c)) :
    Consistent P memsize (h.setChunksize page c) (Function.update phases t phase) := by
  have howners : ∀ mem, owners (h.setChunksize page c) (Function.update phases t phase) mem = owners h phases mem := by
    intro mem
    have hupdate := owners_update (h := h) mem phases t phase
    rw [hfrees] at hupdate
    exact (owners_congr (h := h) rfl mem).trans (by omega)
  have hother : ∀ {mem}, 0 < owners h phases mem → (h.setChunksize page c).chunksize (mem / P.pagesize) =
      h.chunksize (mem / P.pagesize) := fun {mem} hpos => by
    rw [Heap.chunksize_setChunksize, if_neg]
    intro hmem
    rw [hunused mem hmem] at hpos
    exact lt_irrefl 0 hpos
  refine ⟨fun q => ?_, fun q => ?_, hok, fun mem hpos => ?_, fun a ha => ?_⟩
  · rw [Heap.chunksize_setChunksize]
    split
    · exact hc
    · exact hs.chunksize q
  · have hroles : (fun u => (Function.update phases t phase u).role P q) = fun u => (phases u).role P q := by
      funext u
      by_cases hu : u = t
      · rw [hu, Function.update_self, hrole]
      · rw [Function.update_of_ne hu]
    rw [Heap.count_setChunksize, hroles]
    exact hs.counts q
  · rw [howners] at hpos ⊢
    obtain ⟨hone, hmem, hmarked⟩ := hs.owned mem hpos
    exact ⟨hone, hmem.congr (hother hpos), hmarked.congr (hother hpos) (fun _ => rfl) (by simp)⟩
  · rw [hother (owners_pos_of_mem ha)]
    exact hs.bytes a ha

theorem Consistent.openPage (hs : Consistent P memsize h phases) (hP : P.Valid) (ht : phases t = .openPage k)
    (hfree : h.chunksize k.ptetry = 0) :
    Consistent P memsize (h.setChunksize k.ptetry (max k.bytes minChunkSize1))
      (Function.update phases t (.tryUsePage k (max k.bytes minChunkSize1))) := by
  obtain ⟨hregion, hpage⟩ : Phase.Ok P memsize h (.openPage k) := ht ▸ hs.ok t
  have hc : P.ChunkSize (max k.bytes minChunkSize1) := by
    refine ⟨le_max_right _ _, max_lt hregion.1.2.1 (lt_of_lt_of_le (by decide) hP.bounds.1), ?_⟩
    rcases max_choice k.bytes minChunkSize1 with hmax | hmax <;> rw [hmax]
    · exact hregion.1.2.2
    · exact dvd_rfl
  have hzero : ¬ P.ChunkSize (h.chunksize k.ptetry) := fun hsize => hsize.pos.ne' hfree
  refine hs.setChunksize (.inr hc) (fun mem hmem => Nat.eq_zero_of_not_pos fun hpos => ?_) (fun q => by rw [ht]; rfl)
    (fun mem => by rw [ht]; rfl) fun u => ?_
  · have hchunk := (hs.owned mem hpos).2.1.2.1
    rw [hmem] at hchunk
    exact hzero hchunk
  · by_cases hu : u = t
    · rw [hu, Function.update_self]
      exact ⟨hregion, hpage, le_max_left _ _, hc⟩
    · rw [Function.update_of_ne hu]
      have hok := hs.ok u
      cases hphase : phases u with
      | claim k' c' step =>
        rw [hphase] at hok
        refine ⟨hok.1, ?_, hok.2.2⟩
        rw [Heap.chunksize_setChunksize, if_neg, hok.2.1]
        intro hsame
        exact hzero (hsame ▸ hok.2.1 ▸ hok.1.2.2.2)
      | free mem' c' step =>
        rw [hphase] at hok
        refine ⟨hok.1, ?_, hok.2.2⟩
        rw [Heap.chunksize_setChunksize, if_neg, hok.2.1]
        intro hsame
        exact hzero (hsame ▸ hok.2.1 ▸ hok.1)
      | _ =>
        rw [hphase] at hok
        exact hok

theorem Consistent.reset (hs : Consistent P memsize h phases) (ht : phases t = .clean page .chunksize) :
    Consistent P memsize (h.setChunksize page 0) (Function.update phases t (.clean page .unlock)) := by
  have hlocking : (phases t).role P page = .locking := by rw [ht, Phase.role, if_pos rfl]
  obtain ⟨hroles, -, hunused⟩ := hs.locked hlocking
  refine hs.setChunksize (.inl rfl) hunused (fun q => by rw [ht]; rfl) (fun mem => by rw [ht]; rfl) fun u => ?_
  by_cases hu : u = t
  · rw [hu, Function.update_self]
    trivial
  · rw [Function.update_of_ne hu]
    refine (hs.ok u).congr fun q hq => ?_
    rw [Heap.chunksize_setChunksize, if_neg]
    rintro rfl
    exact hroles u hq

/-- A thread takes a chunk whose bit was not set. -/
theorem Consistent.handOut (hP : P.Valid) (hs : Consistent P memsize h phases) {h' : Heap} {a : Allocation}
    {step : Claim} (ht : phases t = .claim k c step) (hpage : a.mem / P.pagesize = k.ptetry)
    (hchunk : ∀ q, h'.chunksize q = h.chunksize q) (hcount : ∀ q, h'.count q = h.count q)
    (hlive : h'.live = a :: h.live) (hbytes : a.bytes = k.bytes) (hmem : IsChunk P memsize h a.mem)
    (hfree : ¬ Marked P h a.mem) (hset : Marked P h' a.mem) (hmarked : ∀ mem, Marked P h mem → Marked P h' mem) :
    Consistent P memsize h' (Function.update phases t .idle) := by
  have hok : Phase.Ok P memsize h (.claim k c step) := ht ▸ hs.ok t
  have howners : ∀ mem, owners h' (Function.update phases t .idle) mem =
      owners h phases mem + if a.mem = mem then 1 else 0 := by
    intro mem
    have hupdate := owners_update (h := h) mem phases t .idle
    rw [ht] at hupdate
    simp only [Phase.frees, Bool.false_eq_true, if_false, add_zero] at hupdate
    rw [← hupdate, owners, owners, hlive, List.countP_cons, add_assoc]
    simp only [decide_eq_true_eq]
  refine ⟨fun q => ?_, fun q => ?_, fun u => ?_, fun mem hpos => ?_, fun b hb => ?_⟩
  · rw [hchunk]
    exact hs.chunksize q
  · have hother : ∀ u ≠ t, (Function.update phases t .idle u).role P q = (phases u).role P q := fun u hu => by
      rw [Function.update_of_ne hu]
    refine (hs.counts q).move (by linarith [hP.bounds.1]) hother ?_
    rw [Function.update_self, ht, hcount]
    unfold chunksOn
    rw [hlive, List.countP_cons, hpage]
    simp only [Phase.role, decide_eq_true_eq]
    split
    · exact .handOut
    · exact .same
  · by_cases hu : u = t
    · rw [hu, Function.update_self]
      trivial
    · rw [Function.update_of_ne hu]
      exact (hs.ok u).congr fun q _ => hchunk q
  · rw [howners] at hpos ⊢
    by_cases heq : a.mem = mem
    · subst heq
      have hzero : owners h phases a.mem = 0 :=
        Nat.eq_zero_of_not_pos fun hpos => hfree (hs.owned a.mem hpos).2.2
      rw [hzero, if_pos rfl]
      exact ⟨rfl, hmem.congr (hchunk _), hset⟩
    · rw [if_neg heq, add_zero] at hpos ⊢
      obtain ⟨hone, hmem, hbit⟩ := hs.owned mem hpos
      exact ⟨hone, hmem.congr (hchunk _), hmarked mem hbit⟩
  · rw [hchunk]
    rw [hlive] at hb
    rcases List.mem_cons.mp hb with rfl | hb
    · rw [hbytes, hpage, hok.2.1]
      exact hok.1.2.2.1
    · exact hs.bytes b hb

theorem Consistent.destroy (hP : P.Valid) (hs : Consistent P memsize h phases) {a : Allocation} (ha : a ∈ h.live)
    (ht : phases t = .idle) :
    Consistent P memsize (h.takeBack a) (Function.update phases t (.destroy a.mem)) := by
  have hperm : h.live.Perm (a :: h.live.erase a) := List.perm_cons_erase ha
  have howners : ∀ mem,
      owners (h.takeBack a) (Function.update phases t (.destroy a.mem)) mem = owners h phases mem := by
    intro mem
    have hupdate := owners_update (h := h) mem phases t (.destroy a.mem)
    have hcount := hperm.countP_eq fun b => b.mem = mem
    rw [List.countP_cons] at hcount
    simp only [decide_eq_true_eq] at hcount
    rw [ht] at hupdate
    simp only [Phase.frees, Bool.false_eq_true, if_false, add_zero, decide_eq_true_eq] at hupdate
    unfold owners at hupdate ⊢
    simp only [Heap.takeBack]
    omega
  refine ⟨hs.chunksize, fun q => ?_, fun u => ?_, fun mem hpos => ?_,
    fun b hb => hs.bytes b (List.mem_of_mem_erase hb)⟩
  · have hother : ∀ u ≠ t, (Function.update phases t (.destroy a.mem) u).role P q = (phases u).role P q :=
      fun u hu => by rw [Function.update_of_ne hu]
    refine (hs.counts q).move (by linarith [hP.bounds.1]) hother ?_
    have hcount := hperm.countP_eq fun b => b.mem / P.pagesize = q
    rw [List.countP_cons] at hcount
    rw [Function.update_self, ht, chunksOn, hcount]
    simp only [Phase.role, decide_eq_true_eq]
    split
    · exact .takeBack
    · exact .same
  · by_cases hu : u = t
    · rw [hu, Function.update_self]
      trivial
    · rw [Function.update_of_ne hu]
      exact hs.ok u
  · rw [howners] at hpos ⊢
    exact hs.owned mem hpos

theorem address_lt (hP : P.Valid) (hc : 0 < c) {chunk : ℕ} (hchunk : chunk < P.capacity c) :
    chunk * c < P.pagesize :=
  (Nat.mul_lt_mul_of_pos_right hchunk hc).trans_le (hP.capacity_mul_le hc)

theorem address_div (hP : P.Valid) (hc : 0 < c) {chunk : ℕ} (hchunk : chunk < P.capacity c) :
    P.address page c chunk / P.pagesize = page := by
  have hlt := address_lt hP hc hchunk
  rw [address, Nat.mul_comm, Nat.mul_add_div (Nat.zero_lt_of_lt hlt), Nat.div_eq_of_lt hlt, add_zero]

theorem address_mod (hP : P.Valid) (hc : 0 < c) {chunk : ℕ} (hchunk : chunk < P.capacity c) :
    P.address page c chunk % P.pagesize = chunk * c := by
  rw [address, Nat.mul_comm, Nat.mul_add_mod, Nat.mod_eq_of_lt (address_lt hP hc hchunk)]

theorem isChunk_address (hP : P.Valid) (hc : P.ChunkSize c) (hpage : page < P.numpages memsize)
    (hsize : h.chunksize page = c) {chunk : ℕ} (hchunk : chunk < P.capacity c) :
    IsChunk P memsize h (P.address page c chunk) := by
  rw [IsChunk, address_div hP hc.pos hchunk, address_mod hP hc.pos hchunk, hsize]
  exact ⟨hpage, hc, chunk, hchunk, rfl⟩

theorem Consistent.useSegment (hP : P.Valid) (hs : Consistent P memsize h phases)
    (ht : phases t = .claim k c (.segment mask tries i segment spot))
    (hfree : (h.data k.ptetry (P.maskWord c segment)).getLsbD spot = false) :
    Consistent P memsize ((h.setWord k.ptetry (P.maskWord c segment)
      (h.data k.ptetry (P.maskWord c segment) ||| (1#32 <<< spot))).handOut
        ⟨P.address k.ptetry c (32 * segment + spot), k.bytes⟩) (Function.update phases t .idle) := by
  obtain ⟨⟨-, hpage, -, hc⟩, hsize, hsmall, hsegment, hspot⟩ :
    Phase.Ok P memsize h (.claim k c (.segment mask tries i segment spot)) := ht ▸ hs.ok t
  have hspot32 : spot < 32 := hspot.trans_le (hP.spots_le hc.pos)
  have hchunk := lt_capacity hsmall hspot hsegment
  have hdiv : P.address k.ptetry c (32 * segment + spot) / P.pagesize = k.ptetry := address_div hP hc.pos hchunk
  have hoffset : P.address k.ptetry c (32 * segment + spot) % P.pagesize = (32 * segment + spot) * c :=
    address_mod hP hc.pos hchunk
  have hword : (32 * segment + spot) / 32 = segment ∧ (32 * segment + spot) % 32 = spot := by omega
  have hmarked : ∀ h' : Heap, h'.chunksize k.ptetry = c → (Marked P h' (P.address k.ptetry c (32 * segment + spot)) ↔
      (h'.data k.ptetry (P.maskWord c segment)).getLsbD spot = true) := fun h' hsize' => by
    rw [marked_small hc.pos hdiv hsize' hsmall hoffset, hword.1, hword.2]
  refine hs.handOut hP ht hdiv (fun q => by simp) (fun q => by simp) rfl rfl
    (isChunk_address hP hc hpage hsize hchunk) ?_ ?_ fun mem hmem => ?_
  · rw [hmarked h hsize, hfree]
    exact Bool.false_ne_true
  · rw [hmarked _ (by simpa using hsize), Heap.data_handOut, Heap.data_setWord, if_pos ⟨rfl, rfl⟩,
      getLsbD_set _ hspot32, decide_eq_true rfl, Bool.or_true]
  · have hword : Marked P (h.setWord k.ptetry (P.maskWord c segment)
        (h.data k.ptetry (P.maskWord c segment) ||| (1#32 <<< spot))) mem := hmem.setWord fun _ _ _ hbit => by
      rw [getLsbD_set _ hspot32, hbit, Bool.true_or]
    exact hword.congr rfl (fun _ => rfl) rfl

theorem Consistent.useSpot (hP : P.Valid) (hs : Consistent P memsize h phases)
    (ht : phases t = .claim k c (.page spot)) (hfree : (h.bitmask k.ptetry).getLsbD spot = false) :
    Consistent P memsize ((h.setBitmask k.ptetry (h.bitmask k.ptetry ||| (1#32 <<< spot))).handOut
      ⟨P.address k.ptetry c spot, k.bytes⟩) (Function.update phases t .idle) := by
  obtain ⟨⟨-, hpage, -, hc⟩, hsize, hlarge, hspot⟩ :
    Phase.Ok P memsize h (.claim k c (.page spot)) := ht ▸ hs.ok t
  have hspot32 : spot < 32 := hspot.trans_le (min_le_right _ _)
  have hchunk : spot < P.capacity c := by
    rw [capacity, if_neg hlarge]
    exact hspot
  have hdiv : P.address k.ptetry c spot / P.pagesize = k.ptetry := address_div hP hc.pos hchunk
  have hoffset : P.address k.ptetry c spot % P.pagesize = spot * c := address_mod hP hc.pos hchunk
  have hmarked : ∀ h' : Heap, h'.chunksize k.ptetry = c →
      (Marked P h' (P.address k.ptetry c spot) ↔ (h'.bitmask k.ptetry).getLsbD spot = true) := fun h' hsize' =>
    marked_large hc.pos hdiv hsize' hlarge hoffset
  refine hs.handOut hP ht hdiv (fun q => by simp) (fun q => by simp) rfl rfl
    (isChunk_address hP hc hpage hsize hchunk) ?_ ?_ fun mem hmem => ?_
  · rw [hmarked h hsize, hfree]
    exact Bool.false_ne_true
  · rw [hmarked _ (by simpa using hsize), Heap.bitmask_handOut, Heap.bitmask_setBitmask, if_pos rfl,
      getLsbD_set _ hspot32, decide_eq_true rfl, Bool.or_true]
  · have hbits : Marked P (h.setBitmask k.ptetry (h.bitmask k.ptetry ||| (1#32 <<< spot))) mem :=
      hmem.setBitmask fun _ _ hbit => by rw [getLsbD_set _ hspot32, hbit, Bool.true_or]
    exact hbits.congr rfl (fun _ => rfl) rfl

theorem setWord_self (word : ℕ) : h.setWord page word (h.data page word) = h := by
  rw [Heap.setWord, Function.update_eq_self, Function.update_eq_self]

theorem setBitmask_self : h.setBitmask page (h.bitmask page) = h := by
  rw [Heap.setBitmask, Heap.bitmask, Function.update_eq_self]

theorem Consistent.markFull (hP : P.Valid) (hs : Consistent P memsize h phases)
    (ht : phases t = .claim k c (.full mask tries i segment)) {mask' : BitVec 32} {phase : Phase}
    (hphase : phase = .giveUp k ∨ ∃ step', phase = .claim k c step' ∧ step'.Ok P c) :
    Consistent P memsize (h.setBitmask k.ptetry mask') (Function.update phases t phase) := by
  obtain ⟨-, hsize, hsmall, -⟩ : Phase.Ok P memsize h (.claim k c (.full mask tries i segment)) := ht ▸ hs.ok t
  have hhint : Consistent P memsize (h.setBitmask k.ptetry mask') (Function.update phases t (phases t)) :=
    hs.changeBits hP (fun q => by simp) rfl (fun q => by simp) (fun _ => rfl) (fun _ hmem => hmem)
      (fun mem _ _ hmem => hmem.setBitmask fun _ hlarge => absurd (hsize ▸ hsmall) hlarge) (hs.ok t)
  rw [Function.update_eq_self] at hhint
  exact hhint.claimNext hP ht hphase

/-- `destroy` always finds a chunk at its address. -/
theorem Consistent.readChunksize (hP : P.Valid) (hs : Consistent P memsize h phases) (ht : phases t = .destroy mem) :
    Consistent P memsize h (Function.update phases t
      (if mem % P.pagesize % h.chunksize (mem / P.pagesize) = 0 ∧ h.chunksize (mem / P.pagesize) < P.pagesize then
        .free mem (h.chunksize (mem / P.pagesize))
          (if h.chunksize (mem / P.pagesize) ≤ P.hierarchyThreshold then .mask else .bit)
      else .elsewhere mem)) := by
  have hfrees : (phases t).frees mem = true := by rw [ht, Phase.frees, decide_eq_true rfl]
  obtain ⟨-, ⟨-, hc, chunk, -, hoffset⟩, -⟩ := hs.owned mem (owners_pos_of_frees hfrees)
  rw [if_pos ⟨by rw [hoffset, Nat.mul_mod_left], hc.2.1⟩]
  refine hs.advance hP (fun page => ?_) (fun mem' hmem => ?_) ⟨hc, rfl, ?_⟩
  · rw [ht]
    exact .same
  · rw [ht]
    split at hmem <;> exact hmem
  · split
    next hsmall => exact hsmall
    next hlarge => exact hlarge

theorem Consistent.unowned (hs : Consistent P memsize h phases) {phase : Phase} {mem' : ℕ}
    (ht : (phases t).frees mem = true) (hphase : phase.frees mem = false)
    (hpos : 0 < owners h (Function.update phases t phase) mem') : mem' ≠ mem := by
  rintro rfl
  have hone := (hs.owned mem' (owners_pos_of_frees ht)).1
  have hupdate := owners_update (h := h) mem' phases t phase
  rw [if_pos ht, hphase, if_neg Bool.false_ne_true] at hupdate
  omega

theorem Consistent.clearMask (hP : P.Valid) (hs : Consistent P memsize h phases) (ht : phases t = .free mem c .mask)
    (hsegment : segment = mem % P.pagesize / (c * 32)) :
    Consistent P memsize (h.setWord (mem / P.pagesize) (P.maskWord c segment)
      (h.data (mem / P.pagesize) (P.maskWord c segment) &&&
        ~~~(1#32 <<< ((mem % P.pagesize - segment * (c * 32)) / c))))
      (Function.update phases t (.free mem c .hint)) := by
  obtain ⟨hc, hsize, hsmall⟩ : Phase.Ok P memsize h (.free mem c .mask) := ht ▸ hs.ok t
  have hfrees : (phases t).frees mem = true := by rw [ht, Phase.frees, decide_eq_true rfl]
  obtain ⟨-, ⟨-, -, chunk, -, hoffset⟩, -⟩ := hs.owned mem (owners_pos_of_frees hfrees)
  rw [hsize] at hoffset
  refine hs.changeBits hP (fun q => by simp) rfl (fun q => by simp) (fun q => by rw [ht]; rfl)
    (fun mem' hmem => absurd hmem Bool.false_ne_true) (fun mem' hpos hchunk' hmem => ?_) ⟨hc, hsize, hsmall⟩
  have hne := hs.unowned hfrees rfl hpos
  refine hmem.setWord fun hpage _ hword hbit => ?_
  rw [hsize] at hword hbit ⊢
  obtain ⟨-, -, chunk', -, hoffset'⟩ := hchunk'
  rw [hpage, hsize] at hoffset'
  have hother := chunk_ne hpage hne hoffset hoffset'
  rw [hoffset', segment_of_chunk hc.pos] at hword hbit ⊢
  rw [spot_of_chunk hc.pos] at hbit ⊢
  rw [hoffset, segment_of_chunk hc.pos] at hsegment
  have hsame : chunk' / 32 = segment := Nat.add_left_cancel hword
  rw [getLsbD_clear, hbit]
  rw [hoffset, hsegment, spot_of_chunk hc.pos]
  omega

theorem Consistent.clearHint (hP : P.Valid) (hs : Consistent P memsize h phases) (ht : phases t = .free mem c .hint)
    (mask' : BitVec 32) : Consistent P memsize (h.setBitmask (mem / P.pagesize) mask')
      (Function.update phases t (.free mem c .count)) := by
  obtain ⟨hc, hsize, hsmall⟩ : Phase.Ok P memsize h (.free mem c .hint) := ht ▸ hs.ok t
  exact hs.changeBits hP (fun q => by simp) rfl (fun q => by simp) (fun q => by rw [ht]; rfl)
    (fun mem' hmem => absurd hmem Bool.false_ne_true)
    (fun mem' _ _ hmem => hmem.setBitmask fun _ hlarge => absurd (hsize ▸ hsmall) hlarge) ⟨hc, hsize, trivial⟩

theorem Consistent.clearBit (hP : P.Valid) (hs : Consistent P memsize h phases) (ht : phases t = .free mem c .bit) :
    Consistent P memsize (h.setBitmask (mem / P.pagesize)
      (h.bitmask (mem / P.pagesize) &&& ~~~(1#32 <<< (mem % P.pagesize / c))))
      (Function.update phases t (.free mem c .count)) := by
  obtain ⟨hc, hsize, -⟩ : Phase.Ok P memsize h (.free mem c .bit) := ht ▸ hs.ok t
  have hfrees : (phases t).frees mem = true := by rw [ht, Phase.frees, decide_eq_true rfl]
  obtain ⟨-, ⟨-, -, chunk, -, hoffset⟩, -⟩ := hs.owned mem (owners_pos_of_frees hfrees)
  rw [hsize] at hoffset
  refine hs.changeBits hP (fun q => by simp) rfl (fun q => by simp) (fun q => by rw [ht]; rfl)
    (fun mem' hmem => absurd hmem Bool.false_ne_true) (fun mem' hpos hchunk' hmem => ?_) ⟨hc, hsize, trivial⟩
  have hne := hs.unowned hfrees rfl hpos
  refine hmem.setBitmask fun hpage _ hbit => ?_
  rw [hsize] at hbit ⊢
  obtain ⟨-, -, chunk', -, hoffset'⟩ := hchunk'
  rw [hpage, hsize] at hoffset'
  have hother := chunk_ne hpage hne hoffset hoffset'
  rw [hoffset', Nat.mul_div_cancel _ hc.pos] at hbit ⊢
  rw [getLsbD_clear, hbit]
  rwa [hoffset, Nat.mul_div_cancel _ hc.pos]

theorem Consistent.decrease (hP : P.Valid) (hthreads : Fintype.card τ + P.pagesize + 1024 < 2^32)
    (hs : Consistent P memsize h phases) (ht : phases t = .free mem c .count) :
    Consistent P memsize (h.atomicSub (mem / P.pagesize) 1) (Function.update phases t
      (if h.count (mem / P.pagesize) = 1 then .emptied (mem / P.pagesize) else .idle)) := by
  have hrole : (phases t).role P (mem / P.pagesize) = .admitted := by rw [ht, Phase.role, if_pos rfl]
  rw [atomicSub_eq (hs.count_lt hP hthreads _) ((hs.counts (mem / P.pagesize)).pos (.inr hrole))]
  have hout : ∀ phase : Phase, (∀ q, phase.role P q = .out) → (∀ mem', phase.frees mem' = false) →
      phase.Ok P memsize h → Consistent P memsize
        (h.setCount (mem / P.pagesize) (h.count (mem / P.pagesize) - 1)) (Function.update phases t phase) := by
    intro phase hphase hfrees hok
    refine hs.changeCount hP ?_ (fun q hq => ?_) (fun mem' hmem => absurd hmem (by simp [hfrees])) hok
    · rw [hrole, hphase]
      exact .release
    · rw [ht, hphase]
      simp only [Phase.role, if_neg (Ne.symm hq)]
  split
  · exact hout _ (fun _ => rfl) (fun _ => rfl) trivial
  · exact hout _ (fun _ => rfl) (fun _ => rfl) trivial

theorem Consistent.lock (hP : P.Valid) (hs : Consistent P memsize h phases) (ht : phases t = .emptied page)
    (hfree : h.count page = 0) (step : Cleaning) :
    Consistent P memsize (h.setCount page P.pagesize) (Function.update phases t (.clean page step)) := by
  refine hs.changeCount hP ?_ (fun q hq => ?_) (fun mem' hmem => absurd hmem Bool.false_ne_true) trivial
  · rw [hfree, ht, Phase.role, Phase.role, if_pos rfl]
    exact .lock
  · rw [ht, Phase.role, Phase.role, if_neg (Ne.symm hq)]

theorem Consistent.unlock (hP : P.Valid) (hthreads : Fintype.card τ + P.pagesize + 1024 < 2^32)
    (hs : Consistent P memsize h phases) (ht : phases t = .clean page .unlock) :
    Consistent P memsize (h.atomicSub page P.pagesize) (Function.update phases t .idle) := by
  have hrole : (phases t).role P page = .locking := by rw [ht, Phase.role, if_pos rfl]
  rw [atomicSub_eq (hs.count_lt hP hthreads _) ((hs.counts page).le_of_locking hrole)]
  refine hs.changeCount hP ?_ (fun q hq => ?_) (fun mem' hmem => absurd hmem Bool.false_ne_true) trivial
  · rw [hrole]
    exact .unlock
  · rw [ht, Phase.role, Phase.role, if_neg (Ne.symm hq)]

/-- The words of a page are cleared while nobody uses a chunk on it. -/
theorem Consistent.clearWord (hP : P.Valid) (hs : Consistent P memsize h phases) {w : ℕ}
    (ht : phases t = .clean page (.word w)) :
    Consistent P memsize (h.setWord page w 0) (Function.update phases t (.clean page (.word (w + 1)))) := by
  have hlocking : (phases t).role P page = .locking := by rw [ht, Phase.role, if_pos rfl]
  obtain ⟨-, -, hunused⟩ := hs.locked hlocking
  refine hs.changeBits hP (fun q => by simp) rfl (fun q => by simp) (fun q => by rw [ht]; rfl)
    (fun mem' hmem => absurd hmem Bool.false_ne_true)
    (fun mem' hpos _ hmem => hmem.setWord fun hpage _ _ _ => ?_) trivial
  have hupdate := owners_update (h := h) mem' phases t (.clean page (.word (w + 1)))
  rw [hunused mem' hpage, ht] at hupdate
  simp only [Phase.frees, Bool.false_eq_true, if_false] at hupdate
  omega

omit [DecidableEq τ] in
/-- The callers do not reach the masks of a page. -/
theorem Covers.lt_maskWord (hP : P.Valid) (hs : Consistent P memsize h phases) {a : Allocation} {word : ℕ}
    (ha : a ∈ h.live) (hcovers : P.Covers a page word) (hsmall : h.chunksize page ≤ P.hierarchyThreshold) (n : ℕ) :
    word < P.maskWord (h.chunksize page) n := by
  obtain ⟨rfl, hword, -⟩ := hcovers
  obtain ⟨-, ⟨-, hc, chunk, hchunk, hoffset⟩, -⟩ := hs.owned a.mem (owners_pos_of_mem ha)
  have hbytes := hs.bytes a ha
  have hmasks := hP.masks_behind hc.pos
  have hend : (chunk + 1) * h.chunksize (a.mem / P.pagesize) ≤
      P.capacity (h.chunksize (a.mem / P.pagesize)) * h.chunksize (a.mem / P.pagesize) := Nat.mul_le_mul_right _ hchunk
  rw [capacity, if_pos hsmall] at hend
  rw [add_mul, one_mul, ← hoffset] at hend
  have hfour : 4 ∣ P.pagesize := (by decide : 4 ∣ dataAlignment).trans hP.bounds.2.2
  unfold maskWord onPageMasksPosition
  omega

theorem Consistent.write (hP : P.Valid) (hs : Consistent P memsize h phases) {a : Allocation} {word : ℕ}
    (ha : a ∈ h.live) (hcovers : P.Covers a page word) (value : BitVec 32) (ht : phases t = .idle) :
    Consistent P memsize (h.setWord page word value) (Function.update phases t .idle) := by
  refine hs.changeBits hP (fun q => by simp) rfl (fun q => by simp) (fun q => by rw [ht])
    (fun mem' hmem => absurd hmem Bool.false_ne_true)
    (fun mem' _ _ hmem => hmem.setWord fun _ hsmall hword _ => ?_) trivial
  exact absurd hword (Covers.lt_maskWord hP hs ha hcovers hsmall _).ne'

theorem padded_ok {bytes : ℕ} (hpos : 0 < bytes) (hbytes : applyPadding bytes < P.pagesize) :
    0 < applyPadding bytes ∧ applyPadding bytes < P.pagesize ∧ dataAlignment ∣ applyPadding bytes := by
  refine ⟨?_, hbytes, Dvd.intro_left _ rfl⟩
  unfold applyPadding dataAlignment
  omega

theorem Consistent.step (hP : P.Valid) (hthreads : Fintype.card τ + P.pagesize + 1025 < 2^32)
    (hs : Consistent P memsize h phases) {h' : Heap} {phase : Phase}
    (hstep : P.Step memsize lane h (phases t) h' phase) :
    Consistent P memsize h' (Function.update phases t phase) := by
  have hok := hs.ok t
  have hthreads' : Fintype.card τ + P.pagesize + 1024 < 2^32 := by omega
  generalize ht : phases t = before at hstep hok
  have houtside : ∀ {phase : Phase}, (∀ page, before.role P page = .out) → (∀ page, phase.role P page = .out) →
      (∀ mem, phase.frees mem = false) → phase.Ok P memsize h →
      Consistent P memsize h (Function.update phases t phase) :=
    fun hout hout' hfrees hok' => hs.search hP (ht ▸ hout) hout' hfrees hok'
  cases hstep with
  | create hpos hbytes _ => exact houtside (fun _ => rfl) (fun _ => rfl) (fun _ => rfl) (padded_ok hpos hbytes)
  | visit hb hblock => exact houtside (fun _ => rfl) (fun _ => rfl) (fun _ => rfl) ⟨hok, visit_lt hb hblock⟩
  | skip | nextBlock | again => exact houtside (fun _ => rfl) (fun _ => rfl) (fun _ => rfl) hok
  | outOfMemory => exact houtside (fun _ => rfl) (fun _ => rfl) (fun _ => rfl) trivial
  | endRegion => exact houtside (fun _ => rfl) (fun _ => rfl) (fun _ => rfl) hok.1
  | @readPage k hregion =>
    have hpage := ptetry_lt hok.2 hregion
    split
    next hsuits =>
      refine houtside (fun _ => rfl) (fun _ => rfl) (fun _ => rfl) ⟨hok, hpage, hsuits.1, ?_⟩
      exact (hs.chunksize k.ptetry).resolve_left (hok.1.1.trans_le hsuits.1).ne'
    next =>
      split
      · exact houtside (fun _ => rfl) (fun _ => rfl) (fun _ => rfl) ⟨hok, hpage⟩
      · exact houtside (fun _ => rfl) (fun _ => rfl) (fun _ => rfl) hok
  | openPage hfree => exact hs.openPage hP ht hfree
  | @opened k hused =>
    split
    next hsuits =>
      exact houtside (fun _ => rfl) (fun _ => rfl) (fun _ => rfl)
        ⟨hok.1, hok.2, hsuits.1, (hs.chunksize k.ptetry).resolve_left hused⟩
    next => exact houtside (fun _ => rfl) (fun _ => rfl) (fun _ => rfl) hok.1
  | increase => exact hs.increase hP hthreads ht
  | recheck => exact hs.recheck hP ht
  | readBitmask => exact hs.claimNext hP ht (addChunkHierarchy_cases hok.2.2 hok.1.2.2.2 _ _ _)
  | useSegment hfree => exact hs.useSegment hP ht hfree
  | @segmentTaken k c mask tries i segment spot htaken =>
    obtain ⟨hpage, -, hsmall, hsegment, hspot⟩ := hok
    rw [set_of_getLsbD (hspot.trans_le (hP.spots_le hpage.2.2.2.pos)) htaken, setWord_self]
    refine hs.claimNext hP ht (.inr ?_)
    split
    · exact ⟨_, rfl, hsmall, hsegment⟩
    · exact ⟨_, rfl, hsmall, hsegment, nextspot_lt _ _ (Nat.zero_lt_of_lt hspot)⟩
  | markFull =>
    have hpos := segments_pos hok.2.2.1 hok.1.2.2.2
    exact hs.markFull hP ht (enterSegment_cases hok.2.2.1 (nextspot_lt _ _ hpos) _ _ _ _ _)
  | useSpot hfree => exact hs.useSpot hP ht hfree
  | @spotTaken k c spot htaken =>
    obtain ⟨-, -, hlarge, hspot⟩ := hok
    rw [set_of_getLsbD (hspot.trans_le (min_le_right _ _)) htaken, setBitmask_self]
    refine hs.claimNext hP ht ?_
    split
    · exact .inl rfl
    · exact .inr ⟨_, rfl, hlarge, nextspot_lt _ _ (Nat.zero_lt_of_lt hspot)⟩
  | giveUp => exact hs.giveUp hP hthreads' ht
  | destroy ha => exact hs.destroy hP ha ht
  | readChunksize => exact hs.readChunksize hP ht
  | clearMask hsegment => exact hs.clearMask hP ht hsegment
  | clearHint => exact hs.clearHint hP ht _
  | clearBit => exact hs.clearBit hP ht
  | decrease => exact hs.decrease hP hthreads' ht
  | lock hfree => exact hs.lock hP ht hfree _
  | notLocked => exact houtside (fun _ => rfl) (fun _ => rfl) (fun _ => rfl) trivial
  | clearWord => exact hs.clearWord hP ht
  | cleared =>
    refine hs.advance hP (fun q => ?_) (fun mem hmem => absurd hmem Bool.false_ne_true) trivial
    rw [ht]
    exact .same
  | reset => exact hs.reset ht
  | unlock => exact hs.unlock hP hthreads' ht
  | write ha hcovers => exact hs.write hP ha hcovers _ ht

omit [DecidableEq τ] in
theorem Consistent.untouched (hP : P.Valid) (hs : Consistent P memsize h phases) {h' : Heap} {phase : Phase}
    (hidle : phases t ≠ .idle) (hstep : P.Step memsize lane h (phases t) h' phase) {a : Allocation} (ha : a ∈ h.live) :
    a ∈ h'.live ∧ ∀ page word, P.Covers a page word → h'.data page word = h.data page word := by
  have hok := hs.ok t
  have hmasks : ∀ {page c segment} (value : BitVec 32), h.chunksize page = c → c ≤ P.hierarchyThreshold →
      ∀ q word, P.Covers a q word → (h.setWord page (P.maskWord c segment) value).data q word = h.data q word := by
    intro page c segment value hsize hsmall q word hcovers
    rw [Heap.data_setWord, if_neg]
    rintro ⟨rfl, hword⟩
    subst hsize
    exact (Covers.lt_maskWord hP hs ha hcovers hsmall segment).ne hword
  generalize ht : phases t = before at hstep hok hidle
  cases hstep with
  | create | destroy | write => exact absurd rfl hidle
  | useSegment => exact ⟨List.mem_cons_of_mem _ ha, hmasks _ hok.2.1 hok.2.2.1⟩
  | segmentTaken => exact ⟨ha, hmasks _ hok.2.1 hok.2.2.1⟩
  | clearMask => exact ⟨ha, hmasks _ hok.2.1 hok.2.2⟩
  | useSpot => exact ⟨List.mem_cons_of_mem _ ha, fun _ _ _ => rfl⟩
  | @clearWord page w =>
    refine ⟨ha, fun q word hcovers => ?_⟩
    rw [Heap.data_setWord, if_neg]
    rintro ⟨rfl, -⟩
    obtain ⟨-, -, hunused⟩ := hs.locked (t := t) (by rw [ht, Phase.role, if_pos rfl])
    exact (owners_pos_of_mem ha).ne' (hunused a.mem hcovers.1)
  | _ => exact ⟨ha, fun _ _ _ => rfl⟩

omit [DecidableEq τ] in
theorem Consistent.onPage (hP : P.Valid) (hs : Consistent P memsize h phases) {a : Allocation} (ha : a ∈ h.live) :
    a.mem + a.bytes ≤ (a.mem / P.pagesize + 1) * P.pagesize ∧ a.mem / P.pagesize < P.numpages memsize ∧
      dataAlignment ∣ a.mem := by
  obtain ⟨-, ⟨hpage, hc, chunk, hchunk, hoffset⟩, -⟩ := hs.owned a.mem (owners_pos_of_mem ha)
  have hbytes := hs.bytes a ha
  have hend := (Nat.mul_le_mul_right (h.chunksize (a.mem / P.pagesize)) hchunk).trans (hP.capacity_mul_le hc.pos)
  have hdiv := Nat.div_add_mod' a.mem P.pagesize
  refine ⟨?_, hpage, ?_⟩
  · rw [Nat.succ_mul, ← hoffset] at hend
    rw [add_mul, one_mul]
    omega
  · rw [← hdiv, hoffset]
    exact dvd_add (hP.bounds.2.2.mul_left _) (hc.2.2.mul_left _)

omit [DecidableEq τ] in
theorem Consistent.apart (hP : P.Valid) (hs : Consistent P memsize h phases) : h.live.Pairwise Allocation.Apart := by
  have hpages : ∀ {a b : Allocation}, a ∈ h.live → a.mem / P.pagesize < b.mem / P.pagesize → a.Apart b := by
    intro a b ha hlt
    have hend := (hs.onPage hP ha).1
    have hpage : (a.mem / P.pagesize + 1) * P.pagesize ≤ b.mem / P.pagesize * P.pagesize := Nat.mul_le_mul_right _ hlt
    exact .inl (hend.trans (hpage.trans (Nat.div_mul_le_self _ _)))
  refine List.Pairwise.imp_of_mem (fun {a b} ha hb hne => ?_) (List.pairwise_map.mp hs.nodup)
  rcases lt_trichotomy (a.mem / P.pagesize) (b.mem / P.pagesize) with hlt | hpage | hlt
  · exact hpages ha hlt
  · obtain ⟨-, ⟨-, hc, chunk, -, hoffset⟩, -⟩ := hs.owned a.mem (owners_pos_of_mem ha)
    obtain ⟨-, ⟨-, -, chunk', -, hoffset'⟩, -⟩ := hs.owned b.mem (owners_pos_of_mem hb)
    have hbytes := hs.bytes a ha
    have hbytes' := hs.bytes b hb
    have hdiv := Nat.div_add_mod' a.mem P.pagesize
    have hdiv' := Nat.div_add_mod' b.mem P.pagesize
    rw [← hpage] at hbytes' hoffset' hdiv'
    have hother : chunk' ≠ chunk := chunk_ne hpage.symm hne.symm hoffset hoffset'
    rcases Nat.lt_or_gt_of_ne hother with hlt | hlt
    · have hend := Nat.mul_le_mul_right (h.chunksize (a.mem / P.pagesize)) hlt
      rw [Nat.succ_mul, ← hoffset, ← hoffset'] at hend
      exact .inr (by omega)
    · have hend := Nat.mul_le_mul_right (h.chunksize (a.mem / P.pagesize)) hlt
      rw [Nat.succ_mul, ← hoffset, ← hoffset'] at hend
      exact .inl (by omega)
  · exact (hpages hb hlt).symm

end Steps

section Run

variable {P : HeapProperties} {memsize : ℕ} {τ : Type*} [Fintype τ] {h : Heap} {phases : τ → Phase}

theorem Consistent.init : Consistent P memsize Heap.init fun _ : τ => .idle where
  chunksize _ := .inl rfl
  counts _ := .zero fun _ => rfl
  ok _ := trivial
  owned mem hpos := by
    have hzero : owners Heap.init (fun _ : τ => Phase.idle) mem = 0 :=
      Nat.add_eq_zero_iff.mpr ⟨population_eq_zero fun _ => Bool.false_ne_true, rfl⟩
    exact absurd hpos hzero.not_gt
  bytes a ha := absurd ha List.not_mem_nil

/-- The tables behind the pages end with the memory. -/
theorem tables_fit (P : HeapProperties) (memsize : ℕ) :
    P.numpages memsize * (P.pagesize + 12) + 4 * P.numregions memsize ≤ memsize := by
  have hle := Nat.div_mul_le_self memsize (P.regionsize * (12 + P.pagesize) + 4)
  have hregions : P.numregions memsize = memsize / (P.regionsize * (12 + P.pagesize) + 4) := by
    rw [numregions, if_neg]
    intro hlt
    refine absurd hle (not_le.mpr (hlt.trans_eq ?_))
    ring
  rw [numpages, hregions]
  refine le_trans (le_of_eq ?_) hle
  ring

/-- When nobody is at work, the counters are the numbers of chunks in use. -/
theorem Consistent.count_eq (hs : Consistent P memsize h phases) (hidle : ∀ t, phases t = .idle) (page : ℕ) :
    h.count page = chunksOn P h page := by
  have hzero : ∀ r ≠ Role.out, population (fun t => (phases t).role P page) r = 0 := fun r hr =>
    population_eq_zero fun t ht => by
      rw [hidle t] at ht
      exact hr ht.symm
  have hcounts := hs.counts page
  rw [Counts, hzero _ (by decide), hzero _ (by decide), hzero _ (by decide)] at hcounts
  rcases hcounts with ⟨-, hcount⟩ | ⟨hone, -⟩
  · omega
  · omega

variable [DecidableEq τ]

theorem Consistent.run (hP : P.Valid) (hthreads : Fintype.card τ + P.pagesize + 1025 < 2^32) (lane : τ → ℕ)
    (hrun : P.Run memsize lane (Heap.init, fun _ => .idle) (h, phases)) : Consistent P memsize h phases := by
  have hpreserved : KernelLaunch.Preserved (fun t => P.Step memsize (lane t))
      fun s : Heap × (τ → Phase) => Consistent P memsize s.1 s.2 :=
    fun t h h' phases phase hs hstep => Consistent.step hP hthreads hs hstep
  exact KernelLaunch.Run.invariant hpreserved hrun Consistent.init

/-- In every run of any number of threads, the memory in use does not overlap and lies on the pages, in front of the
tables. Every address that is freed is the one of a chunk. The threads at work for the heap neither touch memory in use
nor take it away, and when none is at work, the counters tell how many chunks are in use. -/
theorem memory_safe (hP : P.Valid) (hthreads : Fintype.card τ + P.pagesize + 1025 < 2^32) (lane : τ → ℕ)
    (hrun : P.Run memsize lane (Heap.init, fun _ => .idle) (h, phases)) :
    (h.live.Pairwise Allocation.Apart ∧ ∀ a ∈ h.live, a.mem + a.bytes ≤ P.numpages memsize * P.pagesize ∧
      dataAlignment ∣ a.mem) ∧
    P.numpages memsize * (P.pagesize + 12) + 4 * P.numregions memsize ≤ memsize ∧
    (∀ t mem, phases t ≠ .elsewhere mem) ∧
    (∀ t h' phase, phases t ≠ .idle → P.Step memsize (lane t) h (phases t) h' phase → ∀ a ∈ h.live,
      a ∈ h'.live ∧ ∀ page word, P.Covers a page word → h'.data page word = h.data page word) ∧
    ((∀ t, phases t = .idle) → ∀ page, h.count page = h.live.countP fun a => a.mem / P.pagesize = page) := by
  have hs := Consistent.run hP hthreads lane hrun
  refine ⟨⟨hs.apart hP, fun a ha => ?_⟩, tables_fit P memsize, fun t mem ht => ?_,
    fun t h' phase hidle hstep a ha => hs.untouched hP hidle hstep ha, hs.count_eq⟩
  · obtain ⟨hend, hpage, haligned⟩ := hs.onPage hP ha
    exact ⟨hend.trans (Nat.mul_le_mul_right _ hpage), haligned⟩
  · have hok := hs.ok t
    rw [ht] at hok
    exact hok

def smallHeap : HeapProperties := ⟨64, 1, 1, 2⟩

theorem smallHeap_valid : smallHeap.Valid := ⟨⟨6, by decide, by decide, rfl⟩, by decide⟩

/-- Two threads meet on a page, and want the same chunk first. -/
theorem memory_safe_twoThreads : ∃ (h : Heap) (phases : Fin 2 → Phase),
    smallHeap.Run 1000 (fun _ => 0) (Heap.init, fun _ => .idle) (h, phases) ∧ h.live = [⟨16, 16⟩, ⟨0, 16⟩] ∧
      h.live.Pairwise Allocation.Apart := by
  have h0 : smallHeap.Run 1000 (fun _ : Fin 2 => 0) (Heap.init, fun _ => .idle) (Heap.init, fun _ => .idle) := .refl
  have h1 := h0.tail (.mk (b := 0) (@Step.create _ _ _ _ 16 0 0 (by decide) (by decide) (by decide)))
  have h2 := h1.tail (.mk (b := 0) (.visit (by decide) (by decide)))
  have h3 := h2.tail (.mk (b := 0) (.readPage (by decide)))
  have h4 := h3.tail (.mk (b := 0) (.openPage rfl))
  have h5 := h4.tail (.mk (b := 0) .increase)
  have h6 := h5.tail (.mk (b := 1) (@Step.create _ _ _ _ 16 0 0 (by decide) (by decide) (by decide)))
  have h7 := h6.tail (.mk (b := 1) (.visit (by decide) (by decide)))
  have h8 := h7.tail (.mk (b := 1) (.readPage (by decide)))
  have h9 := h8.tail (.mk (b := 1) .increase)
  have h10 := h9.tail (.mk (b := 1) .recheck)
  have h11 := h10.tail (.mk (b := 0) .recheck)
  have h12 := h11.tail (.mk (b := 0) (.useSpot rfl))
  have h13 := h12.tail (.mk (b := 1) (.spotTaken rfl))
  have h14 := h13.tail (.mk (b := 1) (.useSpot rfl))
  exact ⟨_, _, h14, rfl, (memory_safe smallHeap_valid (by decide) _ h14).1.1⟩

end Run

end PIConGPU.Scatter
