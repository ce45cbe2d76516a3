import PIConGPU.Scatter

/-!
# Invariant of the device heap

The counter of a page counts the threads on the page and the chunks in use. Whoever is on a page with a fill level
below the page's size keeps others from locking it, so that its chunk size stays. The bit of every chunk in use is set,
and every chunk is in use once.
-/
namespace PIConGPU.Scatter

open UsageCounter HeapProperties

section Invariant

variable (P : HeapProperties) (memsize : ℕ)

/-- What a thread has in the counter of a page. -/
def Phase.role (page : ℕ) : Phase → Role
  | .recheck k _ filllevel => if k.ptetry = page then if filllevel < P.pagesize then .admitted else .entered else .out
  | .claim k _ _ => if k.ptetry = page then .admitted else .out
  | .giveUp k => if k.ptetry = page then .entered else .out
  | .destroy mem | .elsewhere mem | .free mem _ _ => if mem / P.pagesize = page then .admitted else .out
  | .clean q _ => if q = page then .locking else .out
  | .idle | .search _ | .scan _ | .openPage _ | .tryUsePage _ _ | .emptied _ => .out

/-- The chunk at the address is being freed, and its bit is still set. -/
def Phase.frees (mem : ℕ) : Phase → Bool
  | .destroy mem' | .elsewhere mem' | .free mem' _ .mask | .free mem' _ .bit => mem' = mem
  | _ => false

/-- The address of a chunk of its page. -/
def IsChunk (h : Heap) (mem : ℕ) : Prop :=
  mem / P.pagesize < P.numpages memsize ∧ P.ChunkSize (h.chunksize (mem / P.pagesize)) ∧
    ∃ chunk < P.capacity (h.chunksize (mem / P.pagesize)),
      mem % P.pagesize = chunk * h.chunksize (mem / P.pagesize)

/-- The bit of the chunk at the address is set. -/
def Marked (h : Heap) (mem : ℕ) : Prop :=
  let page := mem / P.pagesize
  let c := h.chunksize page
  if c ≤ P.hierarchyThreshold then
    (h.data page (P.maskWord c (mem % P.pagesize / (c * 32)))).getLsbD
      ((mem % P.pagesize - mem % P.pagesize / (c * 32) * (c * 32)) / c) = true
  else (h.bitmask page).getLsbD (mem % P.pagesize / c) = true

def Search.Ok (k : Search) : Prop := 0 < k.bytes ∧ k.bytes < P.pagesize ∧ dataAlignment ∣ k.bytes

def Search.InRegion (k : Search) : Prop := k.Ok P ∧ k.region < P.numregions memsize

/-- The search has come to a page with chunks that do. -/
def Search.OnPage (k : Search) (c : ℕ) : Prop :=
  k.InRegion P memsize ∧ k.ptetry < P.numpages memsize ∧ k.bytes ≤ c ∧ P.ChunkSize c

def Claim.Ok (c : ℕ) : Claim → Prop
  | .readBitmask => c ≤ P.hierarchyThreshold
  | .segment _ _ _ n spot => c ≤ P.hierarchyThreshold ∧ n < P.segments c ∧ spot < P.spots c n
  | .full _ _ _ n => c ≤ P.hierarchyThreshold ∧ n < P.segments c
  | .page spot => ¬ c ≤ P.hierarchyThreshold ∧ spot < P.chunksinpage c

def Unmark.Ok (c : ℕ) : Unmark → Prop
  | .mask | .hint => c ≤ P.hierarchyThreshold
  | .bit => ¬ c ≤ P.hierarchyThreshold
  | .count => True

/-- What a thread can rely on. -/
def Phase.Ok (h : Heap) : Phase → Prop
  | .search k => k.Ok P
  | .scan k | .giveUp k => k.InRegion P memsize
  | .openPage k => k.InRegion P memsize ∧ k.ptetry < P.numpages memsize
  | .tryUsePage k c | .recheck k c _ => k.OnPage P memsize c
  | .claim k c step => k.OnPage P memsize c ∧ h.chunksize k.ptetry = c ∧ step.Ok P c
  | .free mem c step => P.ChunkSize c ∧ h.chunksize (mem / P.pagesize) = c ∧ step.Ok P c
  | .elsewhere _ => False
  | .idle | .destroy _ | .emptied _ | .clean _ _ => True

variable {τ : Type*} [Fintype τ]

def chunksOn (h : Heap) (page : ℕ) : ℕ := h.live.countP fun a => a.mem / P.pagesize = page

/-- How often the chunk at an address is in use or being freed. -/
def owners (h : Heap) (phases : τ → Phase) (mem : ℕ) : ℕ :=
  population (fun t => (phases t).frees mem) true + h.live.countP fun a => a.mem = mem

structure Consistent (h : Heap) (phases : τ → Phase) : Prop where
  chunksize : ∀ page, h.chunksize page = 0 ∨ P.ChunkSize (h.chunksize page)
  counts : ∀ page, Counts P.pagesize (h.count page) (chunksOn P h page) fun t => (phases t).role P page
  ok : ∀ t, (phases t).Ok P memsize h
  owned : ∀ mem, 0 < owners h phases mem → owners h phases mem = 1 ∧ IsChunk P memsize h mem ∧ Marked P h mem
  bytes : ∀ a ∈ h.live, a.bytes ≤ h.chunksize (a.mem / P.pagesize)

end Invariant

section Consistent

variable {P : HeapProperties} {memsize : ℕ} {h h' : Heap} {page mem c : ℕ} {phase : Phase}

theorem IsChunk.congr (hchunk : h'.chunksize (mem / P.pagesize) = h.chunksize (mem / P.pagesize))
    (hmem : IsChunk P memsize h mem) : IsChunk P memsize h' mem := by
  unfold IsChunk
  rw [hchunk]
  exact hmem

theorem Marked.congr (hchunk : h'.chunksize (mem / P.pagesize) = h.chunksize (mem / P.pagesize))
    (hdata : ∀ word, h'.data (mem / P.pagesize) word = h.data (mem / P.pagesize) word)
    (hbitmask : h'.bitmask (mem / P.pagesize) = h.bitmask (mem / P.pagesize)) (hmem : Marked P h mem) :
    Marked P h' mem := by
  unfold Marked
  simp only [hchunk, hdata, hbitmask]
  exact hmem

theorem Phase.Ok.congr (hchunk : ∀ page, phase.role P page = .admitted → h'.chunksize page = h.chunksize page)
    (hok : phase.Ok P memsize h) : phase.Ok P memsize h' := by
  cases phase with
  | claim k c step =>
    have hpage := hchunk k.ptetry (by simp [Phase.role])
    exact ⟨hok.1, hpage.trans hok.2.1, hok.2.2⟩
  | free mem c step =>
    have hpage := hchunk (mem / P.pagesize) (by simp [Phase.role])
    exact ⟨hok.1, hpage.trans hok.2.1, hok.2.2⟩
  | _ => exact hok

theorem Phase.role_of_frees (hfrees : phase.frees mem = true) : phase.role P (mem / P.pagesize) = .admitted := by
  unfold Phase.frees at hfrees
  split at hfrees <;> simp_all [Phase.role]

variable {τ : Type*} [Fintype τ] {phases : τ → Phase} {t : τ}

theorem owners_pos_of_frees (hfrees : (phases t).frees mem = true) : 0 < owners h phases mem :=
  Nat.add_pos_left (Finset.card_pos.mpr ⟨t, by simp [hfrees]⟩) _

theorem owners_pos_of_mem {a : Allocation} (ha : a ∈ h.live) : 0 < owners h phases a.mem :=
  Nat.add_pos_right _ (List.countP_pos_iff.mpr ⟨a, ha, decide_eq_true rfl⟩)

theorem admitted_of_owners (hpos : 0 < owners h phases mem) :
    (∃ t, (phases t).role P (mem / P.pagesize) = .admitted) ∨ 0 < chunksOn P h (mem / P.pagesize) := by
  unfold owners at hpos
  by_cases hlive : 0 < h.live.countP fun a => a.mem = mem
  · right
    obtain ⟨a, ha, hmem⟩ := List.countP_pos_iff.mp hlive
    refine List.countP_pos_iff.mpr ⟨a, ha, ?_⟩
    rw [of_decide_eq_true hmem]
    exact decide_eq_true rfl
  · left
    have hfrees : 0 < population (fun t => (phases t).frees mem) true := by omega
    obtain ⟨t, ht⟩ := exists_of_population_pos hfrees
    exact ⟨t, Phase.role_of_frees ht⟩

/-- Nobody uses a chunk of a page that is locked. -/
theorem Consistent.locked (hs : Consistent P memsize h phases) (ht : (phases t).role P page = .locking) :
    (∀ u, (phases u).role P page ≠ .admitted) ∧ chunksOn P h page = 0 ∧
      ∀ mem, mem / P.pagesize = page → owners h phases mem = 0 := by
  obtain ⟨hroles, hlive⟩ := (hs.counts page).exclusive ht
  refine ⟨hroles, hlive, fun mem hmem => Nat.eq_zero_of_not_pos fun hpos => ?_⟩
  subst hmem
  rcases admitted_of_owners (P := P) hpos with ⟨u, hu⟩ | hpos
  · exact hroles u hu
  · exact hpos.ne' hlive

theorem Consistent.nodup (hs : Consistent P memsize h phases) : (h.live.map Allocation.mem).Nodup := by
  rw [List.nodup_iff_count_le_one]
  intro mem
  have hcount : (h.live.map Allocation.mem).count mem ≤ owners h phases mem := by
    rw [List.count, List.countP_map]
    exact (List.countP_congr fun a _ => by simp).trans_le (Nat.le_add_left _ _)
  by_cases hpos : 0 < owners h phases mem
  · exact hcount.trans_eq (hs.owned mem hpos).1
  · omega

theorem Consistent.chunksOn_le (hP : P.Valid) (hs : Consistent P memsize h phases) (page : ℕ) :
    chunksOn P h page ≤ 1024 := by
  set l := (h.live.filter fun a => a.mem / P.pagesize = page).map Allocation.mem with hl
  have hlength : chunksOn P h page = l.length := by
    rw [chunksOn, List.countP_eq_length_filter, hl, List.length_map]
  have hnodup : l.Nodup := (List.filter_sublist.map Allocation.mem).nodup hs.nodup
  have hsubset : l ⊆ (List.range 1024).map (P.address page (h.chunksize page)) := by
    intro mem hmem
    obtain ⟨a, ha, rfl⟩ := List.mem_map.mp hmem
    obtain ⟨hlive, hpage⟩ := List.mem_filter.mp ha
    obtain rfl := of_decide_eq_true hpage
    obtain ⟨-, ⟨-, hc, chunk, hchunk, hoffset⟩, -⟩ := hs.owned a.mem (owners_pos_of_mem hlive)
    refine List.mem_map.mpr ⟨chunk, List.mem_range.mpr (hchunk.trans_le (hP.capacity_le hc.pos)), ?_⟩
    rw [address, ← hoffset]
    exact Nat.div_add_mod' a.mem P.pagesize
  calc chunksOn P h page = l.length := hlength
    _ ≤ ((List.range 1024).map (P.address page (h.chunksize page))).length := (hnodup.subperm hsubset).length_le
    _ = 1024 := by rw [List.length_map, List.length_range]

theorem Consistent.count_lt (hP : P.Valid) (hthreads : Fintype.card τ + P.pagesize + 1024 < 2^32)
    (hs : Consistent P memsize h phases) (page : ℕ) : h.count page < 2^32 := by
  have hcount := (hs.counts page).le
  have hchunks := hs.chunksOn_le hP page
  omega

variable [DecidableEq τ]

theorem owners_update (mem : ℕ) (phases : τ → Phase) (t : τ) (phase : Phase) :
    owners h (Function.update phases t phase) mem + (if (phases t).frees mem = true then 1 else 0) =
      owners h phases mem + (if phase.frees mem = true then 1 else 0) := by
  have hother : ∀ u ≠ t, (Function.update phases t phase u).frees mem = (phases u).frees mem := fun u hu => by
    rw [Function.update_of_ne hu]
  have hchange := population_change hother true
  simp only [Function.update_self] at hchange
  unfold owners
  omega

omit [DecidableEq τ] in
theorem owners_congr (hlive : h'.live = h.live) (mem : ℕ) : owners h' phases mem = owners h phases mem := by
  rw [owners, hlive, owners]

theorem Consistent.frame (hP : P.Valid) (hs : Consistent P memsize h phases)
    (hchunk : ∀ page, h'.chunksize page = h.chunksize page) (hlive : h'.live = h.live)
    (hmove : ∀ page, Move P.pagesize (h.count page) (chunksOn P h page) ((phases t).role P page)
      (h'.count page) (chunksOn P h page) (phase.role P page))
    (hfrees : ∀ mem, phase.frees mem = true → (phases t).frees mem = true)
    (hmarked : ∀ mem, 0 < owners h (Function.update phases t phase) mem → IsChunk P memsize h mem → Marked P h mem →
      Marked P h' mem)
    (hok : phase.Ok P memsize h) : Consistent P memsize h' (Function.update phases t phase) where
  chunksize page := by
    rw [hchunk]
    exact hs.chunksize page
  counts page := by
    have hrest : chunksOn P h' page = chunksOn P h page := by rw [chunksOn, hlive, chunksOn]
    have hother : ∀ u ≠ t, (Function.update phases t phase u).role P page = (phases u).role P page := fun u hu => by
      rw [Function.update_of_ne hu]
    rw [hrest]
    refine (hs.counts page).move (by linarith [hP.bounds.1]) hother ?_
    rw [Function.update_self]
    exact hmove page
  ok u := by
    by_cases hu : u = t
    · rw [hu, Function.update_self]
      exact hok.congr fun page _ => hchunk page
    · rw [Function.update_of_ne hu]
      exact (hs.ok u).congr fun page _ => hchunk page
  owned mem hpos := by
    rw [owners_congr hlive] at hpos ⊢
    have hupdate := owners_update (h := h) mem phases t phase
    have hle : (if phase.frees mem = true then 1 else 0) ≤ if (phases t).frees mem = true then 1 else 0 := by
      by_cases hmem : phase.frees mem = true
      · rw [if_pos hmem, if_pos (hfrees mem hmem)]
      · rw [if_neg hmem]
        exact Nat.zero_le _
    obtain ⟨hone, hmem, hset⟩ := hs.owned mem (by omega)
    exact ⟨by omega, hmem.congr (hchunk _), hmarked mem hpos hmem hset⟩
  bytes a ha := by
    rw [hlive] at ha
    rw [hchunk]
    exact hs.bytes a ha

theorem Consistent.advance (hP : P.Valid) (hs : Consistent P memsize h phases)
    (hmove : ∀ page, Move P.pagesize (h.count page) (chunksOn P h page) ((phases t).role P page)
      (h.count page) (chunksOn P h page) (phase.role P page))
    (hfrees : ∀ mem, phase.frees mem = true → (phases t).frees mem = true) (hok : phase.Ok P memsize h) :
    Consistent P memsize h (Function.update phases t phase) :=
  hs.frame hP (fun _ => rfl) rfl hmove hfrees (fun _ _ _ hmem => hmem) hok

theorem Consistent.search (hP : P.Valid) (hs : Consistent P memsize h phases)
    (hout : ∀ page, (phases t).role P page = .out) (hout' : ∀ page, phase.role P page = .out)
    (hfrees : ∀ mem, phase.frees mem = false) (hok : phase.Ok P memsize h) :
    Consistent P memsize h (Function.update phases t phase) := by
  refine hs.advance hP (fun page => ?_) (fun mem hmem => absurd hmem (by simp [hfrees])) hok
  rw [hout, hout']
  exact .same

/-- A step that changes the counter of one page. -/
theorem Consistent.changeCount (hP : P.Valid) (hs : Consistent P memsize h phases) {n : ℕ}
    (hmove : Move P.pagesize (h.count page) (chunksOn P h page) ((phases t).role P page) n (chunksOn P h page)
      (phase.role P page))
    (hother : ∀ q ≠ page, phase.role P q = (phases t).role P q)
    (hfrees : ∀ mem, phase.frees mem = true → (phases t).frees mem = true) (hok : phase.Ok P memsize h) :
    Consistent P memsize (h.setCount page n) (Function.update phases t phase) := by
  refine hs.frame hP (fun q => by simp) rfl (fun q => ?_) hfrees (fun mem _ _ hmem => ?_) hok
  · by_cases hq : q = page
    · subst hq
      rw [Heap.count_setCount, if_pos rfl]
      exact hmove
    · rw [Heap.count_setCount, if_neg hq, hother q hq]
      exact .same
  · exact Marked.congr (h := h) (by simp) (fun _ => rfl) (by simp) hmem

/-- A step that changes a bitfield in the page table, or a word of a page. -/
theorem Consistent.changeBits (hP : P.Valid) (hs : Consistent P memsize h phases)
    (hchunk : ∀ page, h'.chunksize page = h.chunksize page) (hlive : h'.live = h.live)
    (hcount : ∀ page, h'.count page = h.count page) (hrole : ∀ page, phase.role P page = (phases t).role P page)
    (hfrees : ∀ mem, phase.frees mem = true → (phases t).frees mem = true)
    (hmarked : ∀ mem, 0 < owners h (Function.update phases t phase) mem → IsChunk P memsize h mem → Marked P h mem →
      Marked P h' mem)
    (hok : phase.Ok P memsize h) : Consistent P memsize h' (Function.update phases t phase) := by
  refine hs.frame hP hchunk hlive (fun page => ?_) hfrees hmarked hok
  rw [hcount, hrole]
  exact .same

end Consistent

section Bits

variable {P : HeapProperties} {memsize : ℕ} {h : Heap} {page mem c n spot word : ℕ} {value mask : BitVec 32}

theorem segment_of_chunk (hc : 0 < c) (chunk : ℕ) : chunk * c / (c * 32) = chunk / 32 := by
  rw [mul_comm chunk, Nat.mul_div_mul_left _ _ hc]

theorem spot_of_chunk (hc : 0 < c) (chunk : ℕ) : (chunk * c - chunk / 32 * (c * 32)) / c = chunk % 32 := by
  have hsplit : chunk * c - chunk / 32 * (c * 32) = chunk % 32 * c := by
    have hdiv := Nat.div_add_mod chunk 32
    have : chunk * c = chunk / 32 * (c * 32) + chunk % 32 * c := by
      calc chunk * c = (32 * (chunk / 32) + chunk % 32) * c := by rw [hdiv]
        _ = chunk / 32 * (c * 32) + chunk % 32 * c := by ring
    omega
  rw [hsplit, Nat.mul_div_cancel _ hc]

theorem marked_small (hc : 0 < c) (hpage : mem / P.pagesize = page) (hchunk : h.chunksize page = c)
    (hsmall : c ≤ P.hierarchyThreshold) (hoffset : mem % P.pagesize = n * c) :
    Marked P h mem ↔ (h.data page (P.maskWord c (n / 32))).getLsbD (n % 32) = true := by
  unfold Marked
  simp only [hpage, hchunk, if_pos hsmall, hoffset, segment_of_chunk hc, spot_of_chunk hc]

theorem marked_large (hc : 0 < c) (hpage : mem / P.pagesize = page) (hchunk : h.chunksize page = c)
    (hlarge : ¬ c ≤ P.hierarchyThreshold) (hoffset : mem % P.pagesize = n * c) :
    Marked P h mem ↔ (h.bitmask page).getLsbD n = true := by
  unfold Marked
  simp only [hpage, hchunk, if_neg hlarge, hoffset, Nat.mul_div_cancel _ hc]

/-- The hints in the page table do not matter for small chunks. -/
theorem Marked.setBitmask (hmem : Marked P h mem)
    (hbits : mem / P.pagesize = page → ¬ h.chunksize page ≤ P.hierarchyThreshold →
      (h.bitmask page).getLsbD (mem % P.pagesize / h.chunksize page) = true →
        mask.getLsbD (mem % P.pagesize / h.chunksize page) = true) :
    Marked P (h.setBitmask page mask) mem := by
  unfold Marked at hmem ⊢
  simp only [Heap.chunksize_setBitmask, Heap.bitmask_setBitmask]
  by_cases hsmall : h.chunksize (mem / P.pagesize) ≤ P.hierarchyThreshold
  · simp only [if_pos hsmall] at hmem ⊢
    exact hmem
  · simp only [if_neg hsmall] at hmem ⊢
    split
    next hpage =>
      subst hpage
      exact hbits rfl hsmall hmem
    next => exact hmem

/-- The words without masks do not matter. -/
theorem Marked.setWord (hmem : Marked P h mem)
    (hbits : mem / P.pagesize = page → h.chunksize page ≤ P.hierarchyThreshold →
      P.maskWord (h.chunksize page) (mem % P.pagesize / (h.chunksize page * 32)) = word →
        (h.data page word).getLsbD ((mem % P.pagesize - mem % P.pagesize / (h.chunksize page * 32) *
          (h.chunksize page * 32)) / h.chunksize page) = true →
        value.getLsbD ((mem % P.pagesize - mem % P.pagesize / (h.chunksize page * 32) *
          (h.chunksize page * 32)) / h.chunksize page) = true) :
    Marked P (h.setWord page word value) mem := by
  unfold Marked at hmem ⊢
  simp only [Heap.chunksize_setWord, Heap.bitmask_setWord, Heap.data_setWord]
  by_cases hsmall : h.chunksize (mem / P.pagesize) ≤ P.hierarchyThreshold
  · simp only [if_pos hsmall] at hmem ⊢
    split
    next hword =>
      obtain ⟨rfl, rfl⟩ := hword
      exact hbits rfl hsmall rfl hmem
    next => exact hmem
  · simp only [if_neg hsmall] at hmem ⊢
    exact hmem

theorem chunk_ne {mem' chunk chunk' : ℕ} (hpage : mem' / P.pagesize = mem / P.pagesize) (hne : mem' ≠ mem)
    (hoffset : mem % P.pagesize = chunk * c) (hoffset' : mem' % P.pagesize = chunk' * c) : chunk' ≠ chunk := by
  rintro rfl
  apply hne
  rw [← Nat.div_add_mod mem P.pagesize, ← Nat.div_add_mod mem' P.pagesize, hpage, hoffset, hoffset']

end Bits

end PIConGPU.Scatter
