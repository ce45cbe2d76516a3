import Mathlib

/-!
# KernelReduction

The threads of a launch add up the elements of an array. Each thread reads the elements of its residue class, the
threads of a block add their values in shared memory, and the result of a block is stored at the number of the block.
The functor is the addition of a commutative semigroup, since there may be no neutral element.
-/
namespace PIConGPU.KernelReduction

/-- The array of a launch is the one of the caller, or starts at an element of the buffer. The result of a block is
assigned or added. -/
structure Launch where
  srcOffset : Option ℕ
  srcCount : ℕ
  gridSize : ℕ
  blockSize : ℕ
  accumulate : Bool

def Launch.globalThreadCount (c : Launch) : ℕ := c.gridSize * c.blockSize

def Launch.tid (c : Launch) (b l : ℕ) : ℕ := b * c.blockSize + l

/-- The indices that a thread reads from index `i` on. An index has 32 bits. -/
inductive Reads (srcCount globalThreadCount : ℕ) : ℕ → List ℕ → Prop
  | done {i : ℕ} (h : srcCount ≤ i) : Reads srcCount globalThreadCount i []
  | read {i : ℕ} {l : List ℕ} (h : i < srcCount)
    (hrest : Reads srcCount globalThreadCount ((i + globalThreadCount) % 2^32) l) :
    Reads srcCount globalThreadCount i (i :: l)

section Semigroup

variable {V : Type*} [AddCommSemigroup V]

def add (a b : Option V) : Option V := Option.map₂ (· + ·) a b

def value (src : ℕ → Option V) (tid : ℕ) (reads : List ℕ) : Option V :=
  reads.foldl (fun r i => add r (src i)) (src tid)

/-- The reduction of the shared memory, with the threads that are active. It fails when a slot is read that was not
written. -/
def reduceShared (blockSize chunkCount : ℕ) (active : ℕ → Bool) (sMem : ℕ → Option V) :
    Option ((ℕ → Bool) × (ℕ → Option V)) :=
  if 1 < chunkCount then
    let active := fun l => decide (¬ (l ≠ 0 ∧ chunkCount / 2 ≤ l))
    let chunkCount' := (chunkCount + 1) / 2
    if ∀ l < blockSize, active l = true → (sMem l).isSome = true ∧ (sMem (l + chunkCount')).isSome = true then
      reduceShared blockSize chunkCount' active fun l =>
        if l < blockSize ∧ active l = true then add (sMem l) (sMem (l + chunkCount')) else sMem l
    else none
  else some (active, sMem)
termination_by chunkCount

def Launch.src (c : Launch) (source dest : ℕ → Option V) (i : ℕ) : Option V :=
  match c.srcOffset with
  | none => source i
  | some offset => dest (offset + i)

def Launch.writeBack (c : Launch) (b blockSize : ℕ) (active : ℕ → Bool) (v : V) (dest : ℕ → Option V) : ℕ → Option V :=
  ((List.range blockSize).filter active).foldl
    (fun dest _ => Function.update dest b (if c.accumulate then add (dest b) (some v) else some v)) dest

inductive Block (c : Launch) (source : ℕ → Option V) (b : ℕ) (dest : ℕ → Option V) : (ℕ → Option V) → Prop
  | mk {reads : ℕ → List ℕ} {active : ℕ → Bool} {sMem : ℕ → Option V} {v : V}
    (hreads : ∀ l < c.blockSize, c.tid b l < c.srcCount →
      Reads c.srcCount c.globalThreadCount ((c.tid b l + c.globalThreadCount) % 2^32) (reads l))
    (hshared : reduceShared c.blockSize c.blockSize (fun l => decide (c.tid b l < c.srcCount))
      (fun l => if l < c.blockSize ∧ c.tid b l < c.srcCount then
        value (c.src source dest) (c.tid b l) (reads l) else none) = some (active, sMem))
    (hresult : sMem 0 = some v) : Block c source b dest (c.writeBack b c.blockSize active v dest)

inductive Blocks (c : Launch) (source : ℕ → Option V) : List ℕ → (ℕ → Option V) → (ℕ → Option V) → Prop
  | nil {dest : ℕ → Option V} : Blocks c source [] dest dest
  | cons {b : ℕ} {blocks : List ℕ} {dest dest' dest'' : ℕ → Option V} (hblock : Block c source b dest dest')
    (hrest : Blocks c source blocks dest' dest'') : Blocks c source (b :: blocks) dest dest''

/-- With every order of the blocks, all launches of the list return, and the buffer is as described afterwards. -/
def Runs (source : ℕ → Option V) : List Launch → (ℕ → Option V) → ((ℕ → Option V) → Prop) → Prop
  | [], dest, post => post dest
  | c :: launches, dest, post => ∀ blocks : List ℕ, blocks.Perm (List.range c.gridSize) →
      (∃ dest', Blocks c source blocks dest dest') ∧
      ∀ dest', Blocks c source blocks dest dest' → Runs source launches dest' post

theorem Runs.and {source dest : ℕ → Option V} {launches : List Launch} {p q : (ℕ → Option V) → Prop}
    (hp : Runs source launches dest p) (hq : Runs source launches dest q) :
    Runs source launches dest fun dest => p dest ∧ q dest := by
  induction launches generalizing dest with
  | nil => exact ⟨hp, hq⟩
  | cons c launches ih =>
    exact fun blocks hblocks => ⟨(hp blocks hblocks).1, fun dest' h =>
      ih ((hp blocks hblocks).2 dest' h) ((hq blocks hblocks).2 dest' h)⟩

theorem Runs.exists {source dest : ℕ → Option V} {launches : List Launch} {p : (ℕ → Option V) → Prop}
    (h : Runs source launches dest p) : ∃ dest', p dest' := by
  induction launches generalizing dest with
  | nil => exact ⟨dest, h⟩
  | cons c launches ih =>
    obtain ⟨⟨dest', hdest'⟩, hrest⟩ := h _ (List.Perm.refl _)
    exact ih (hrest dest' hdest')

end Semigroup

section Reads

variable {srcCount stride i : ℕ} {l : List ℕ}

theorem Reads.lt (h : Reads srcCount stride i l) : ∀ j ∈ l, j < srcCount := by
  induction h with
  | done h => simp
  | read h _ ih => exact List.forall_mem_cons.mpr ⟨h, ih⟩

theorem add_le_of_mod_eq {j : ℕ} (hlt : i < j) (h : j % stride = i % stride) : i + stride ≤ j := by
  have hdvd : stride ∣ j - i := (Nat.modEq_iff_dvd' hlt.le).mp h.symm
  have := Nat.le_of_dvd (by omega) hdvd
  omega

/-- As long as the index does not wrap around, a thread reads a residue class. -/
theorem Reads.sum_map {A : Type*} [AddCommMonoid A] (h : Reads srcCount stride i l) (hstride : 0 < stride)
    (hfits : srcCount + stride ≤ 2^32) (f : ℕ → A) :
    (l.map f).sum = ∑ j ∈ (Finset.range srcCount).filter fun j => i ≤ j ∧ j % stride = i % stride, f j := by
  induction h with
  | done h =>
    rw [Finset.filter_eq_empty_iff.mpr fun j hj hij => by
      have := Finset.mem_range.mp hj
      omega]
    rfl
  | @read i l h _ ih =>
    rw [Nat.mod_eq_of_lt (by omega), Nat.add_mod_right] at ih
    have hinsert : ((Finset.range srcCount).filter fun j => i ≤ j ∧ j % stride = i % stride) =
        insert i ((Finset.range srcCount).filter fun j => i + stride ≤ j ∧ j % stride = i % stride) := by
      ext j
      rw [Finset.mem_insert, Finset.mem_filter, Finset.mem_filter]
      constructor
      · rintro ⟨hj, hij, hmod⟩
        rcases hij.eq_or_lt with rfl | hlt
        · exact .inl rfl
        · exact .inr ⟨hj, add_le_of_mod_eq hlt hmod, hmod⟩
      · rintro (rfl | ⟨hj, hij, hmod⟩)
        · exact ⟨Finset.mem_range.mpr h, le_rfl, rfl⟩
        · exact ⟨hj, by omega, hmod⟩
    rw [hinsert, Finset.sum_insert fun hmem => by
      have := (Finset.mem_filter.mp hmem).2.1
      omega, List.map_cons, List.sum_cons, ih]

theorem exists_reads (hstride : 0 < stride) (hfits : srcCount + stride ≤ 2^32) (i : ℕ) :
    ∃ l, Reads srcCount stride i l := by
  induction hn : srcCount - i using Nat.strong_induction_on generalizing i with
  | _ n ih =>
    by_cases hi : i < srcCount
    · obtain ⟨l, hl⟩ := ih (srcCount - (i + stride)) (by omega) (i + stride) rfl
      exact ⟨i :: l, .read hi (by rwa [Nat.mod_eq_of_lt (by omega)])⟩
    · exact ⟨[], .done (not_lt.mp hi)⟩

theorem Reads.head_mem (h : Reads srcCount stride i l) (hi : i < srcCount) : i ∈ l := by
  cases h with
  | done h => omega
  | read => exact List.mem_cons_self ..

/-- An index that wraps around to zero starts again. -/
theorem Reads.zero_mem (h : Reads srcCount stride i l) (hpos : 0 < srcCount) (hwrap : 2^32 < srcCount + stride)
    (hi : i < 2^32) (hdvd : stride ∣ 2^32 - i) : 0 ∈ l := by
  induction h with
  | done h =>
    have := Nat.le_of_dvd (by omega) hdvd
    omega
  | @read i l h hrest ih =>
    refine List.mem_cons_of_mem _ ?_
    by_cases hlt : i + stride < 2^32
    · rw [Nat.mod_eq_of_lt hlt] at ih
      refine ih hlt ?_
      have hsub := Nat.dvd_sub hdvd (dvd_refl stride)
      rwa [Nat.sub_sub] at hsub
    · have heq : i + stride = 2^32 := by
        have := Nat.le_of_dvd (by omega) hdvd
        omega
      rw [heq, Nat.mod_self] at hrest
      exact hrest.head_mem hpos

/-- The threads of a launch read every element once. -/
theorem sum_threads {A : Type*} [AddCommMonoid A] (hstride : 0 < stride) (hle : stride ≤ srcCount)
    (hfits : srcCount + stride ≤ 2^32) {reads : ℕ → List ℕ}
    (hreads : ∀ t < stride, Reads srcCount stride ((t + stride) % 2^32) (reads t)) (f : ℕ → A) :
    ∑ t ∈ Finset.range stride, ((t :: reads t).map f).sum = ∑ j ∈ Finset.range srcCount, f j := by
  have hthread : ∀ t ∈ Finset.range stride, ((t :: reads t).map f).sum =
      ∑ j ∈ (Finset.range srcCount).filter fun j => j % stride = t, f j := fun t ht => by
    have hlt := Finset.mem_range.mp ht
    have hrest := hreads t hlt
    rw [Nat.mod_eq_of_lt (by omega)] at hrest
    have hinsert : ((Finset.range srcCount).filter fun j => j % stride = t) =
        insert t ((Finset.range srcCount).filter fun j => t + stride ≤ j ∧ j % stride = (t + stride) % stride) := by
      ext j
      rw [Finset.mem_insert, Finset.mem_filter, Finset.mem_filter, Nat.add_mod_right, Nat.mod_eq_of_lt hlt]
      constructor
      · rintro ⟨hj, hmod⟩
        by_cases hjt : j < stride
        · exact .inl (by rw [← hmod, Nat.mod_eq_of_lt hjt])
        · refine .inr ⟨hj, add_le_of_mod_eq (by omega) ?_, hmod⟩
          rw [hmod, Nat.mod_eq_of_lt hlt]
      · rintro (rfl | ⟨hj, -, hmod⟩)
        · exact ⟨Finset.mem_range.mpr (by omega), Nat.mod_eq_of_lt hlt⟩
        · exact ⟨hj, hmod⟩
    rw [List.map_cons, List.sum_cons, hrest.sum_map hstride hfits, hinsert, Finset.sum_insert fun hmem => by
      have := (Finset.mem_filter.mp hmem).2.1
      omega]
  rw [Finset.sum_congr rfl hthread]
  exact Finset.sum_fiberwise_of_maps_to (fun j _ => Finset.mem_range.mpr (Nat.mod_lt _ hstride)) f

end Reads

section Block

variable {V : Type*} [AddCommSemigroup V] {c : Launch} {source dest dest' : ℕ → Option V} {b k : ℕ} {f : ℕ → V}

theorem add_some (a b : V) : add (some a) (some b) = some (a + b) := rfl

/-- A block of a power of two threads adds all slots, and its first thread is the only one that is active in the end. -/
theorem reduceShared_spec {blockSize : ℕ} (hk : 2^k ≤ blockSize) {sMem : ℕ → Option V}
    (hs : ∀ l < 2^k, sMem l = some (f l)) (active : ℕ → Bool) :
    ∃ active' sMem' v, reduceShared blockSize (2^k) active sMem = some (active', sMem') ∧ sMem' 0 = some v ∧
      (v : WithZero V) = ∑ l ∈ Finset.range (2^k), (f l : WithZero V) ∧
      active' = if k = 0 then active else fun l => decide (l = 0) := by
  induction k generalizing sMem active f with
  | zero =>
    refine ⟨active, sMem, f 0, ?_, hs 0 (by norm_num), by simp, rfl⟩
    rw [reduceShared, if_neg (by norm_num)]
  | succ k ih =>
    have hpos : 0 < 2^k := Nat.pow_pos (by norm_num)
    have hpow : 2^(k + 1) = 2^k + 2^k := by ring
    have hhalf : 2^(k + 1) / 2 = 2^k := by omega
    have hhalf' : (2^(k + 1) + 1) / 2 = 2^k := by omega
    have hactive : ∀ l, decide (¬ (l ≠ 0 ∧ 2^k ≤ l)) = true ↔ l < 2^k := fun l => by
      rw [decide_eq_true_iff]
      omega
    have hslots : ∀ l < blockSize, decide (¬ (l ≠ 0 ∧ 2^k ≤ l)) = true →
        (sMem l).isSome = true ∧ (sMem (l + 2^k)).isSome = true := fun l _ hl => by
      rw [hactive] at hl
      rw [hs l (by omega), hs (l + 2^k) (by omega)]
      exact ⟨rfl, rfl⟩
    have hnew : ∀ l < 2^k, (if l < blockSize ∧ decide (¬ (l ≠ 0 ∧ 2^k ≤ l)) = true then
        add (sMem l) (sMem (l + 2^k)) else sMem l) = some (f l + f (l + 2^k)) := fun l hl => by
      rw [if_pos ⟨by omega, (hactive l).mpr hl⟩, hs l (by omega), hs (l + 2^k) (by omega), add_some]
    obtain ⟨active', sMem', v, hreduce, hzero, hsum, hactive'⟩ := ih (by omega) hnew
      fun l => decide (¬ (l ≠ 0 ∧ 2^k ≤ l))
    refine ⟨active', sMem', v, ?_, hzero, ?_, ?_⟩
    · rw [reduceShared, if_pos (by omega)]
      simp only [hhalf, hhalf']
      rw [if_pos hslots]
      exact hreduce
    · rw [hsum, hpow, Finset.sum_range_add, ← Finset.sum_add_distrib]
      exact Finset.sum_congr rfl fun l _ => by rw [WithZero.coe_add, Nat.add_comm]
    · rw [hactive', if_neg (Nat.succ_ne_zero k)]
      split_ifs with hk0
      · subst hk0
        funext l
        rw [decide_eq_decide]
        omega
      · rfl

def total (f : ℕ → V) (l : List ℕ) : WithZero V := (l.map fun i => (f i : WithZero V)).sum

theorem value_spec {src : ℕ → Option V} {tid : ℕ} {reads : List ℕ} (hsrc : ∀ i ∈ tid :: reads, src i = some (f i)) :
    ∃ v, value src tid reads = some v ∧ (v : WithZero V) = total f (tid :: reads) := by
  have hfold : ∀ (reads : List ℕ) (a : V), (∀ i ∈ reads, src i = some (f i)) →
      ∃ v, reads.foldl (fun r i => add r (src i)) (some a) = some v ∧ (v : WithZero V) = a + total f reads := by
    intro reads
    induction reads with
    | nil => exact fun a _ => ⟨a, rfl, by simp [total]⟩
    | cons i reads ih =>
      intro a h
      obtain ⟨hi, hreads⟩ := List.forall_mem_cons.mp h
      obtain ⟨v, hv, hsum⟩ := ih (a + f i) hreads
      refine ⟨v, by rw [List.foldl_cons, hi, add_some, hv], ?_⟩
      rw [hsum, WithZero.coe_add, total, total, List.map_cons, List.sum_cons, add_assoc]
  obtain ⟨htid, hreads⟩ := List.forall_mem_cons.mp hsrc
  obtain ⟨v, hv, hsum⟩ := hfold reads (f tid) hreads
  exact ⟨v, by rw [value, htid, hv], by rw [hsum, total, total, List.map_cons, List.sum_cons]⟩

def Launch.store (c : Launch) (b : ℕ) (v : V) (dest : ℕ → Option V) : ℕ → Option V :=
  Function.update dest b (if c.accumulate then add (dest b) (some v) else some v)

theorem filter_range_zero {n : ℕ} (hn : 0 < n) : (List.range n).filter (fun l => decide (l = 0)) = [0] := by
  obtain ⟨m, rfl⟩ : ∃ m, n = m + 1 := ⟨n - 1, by omega⟩
  rw [List.range_succ_eq_map, List.filter_cons_of_pos (by simp), List.cons_inj_right, List.filter_eq_nil_iff]
  intro l hl
  obtain ⟨m, -, rfl⟩ := List.mem_map.mp hl
  simp

theorem Launch.tid_lt {l : ℕ} (hactive : c.globalThreadCount ≤ c.srcCount) (hb : b < c.gridSize) (hl : l < c.blockSize) :
    c.tid b l < c.srcCount := by
  have hle : (b + 1) * c.blockSize ≤ c.gridSize * c.blockSize := Nat.mul_le_mul_right _ hb
  rw [Nat.succ_mul] at hle
  unfold Launch.globalThreadCount at hactive
  unfold Launch.tid
  omega

section Active

variable (hB : c.blockSize = 2^k) (hactive : c.globalThreadCount ≤ c.srcCount) (hb : b < c.gridSize)
  (hsrc : ∀ i < c.srcCount, c.src source dest i = some (f i))
include hB hactive hb hsrc

/-- The result of a block for given reads, with all threads active. -/
theorem reduceBlock_spec {reads : ℕ → List ℕ} (hreads : ∀ l < c.blockSize,
    Reads c.srcCount c.globalThreadCount ((c.tid b l + c.globalThreadCount) % 2^32) (reads l)) :
    ∃ active sMem v, reduceShared c.blockSize c.blockSize (fun l => decide (c.tid b l < c.srcCount))
      (fun l => if l < c.blockSize ∧ c.tid b l < c.srcCount then
        value (c.src source dest) (c.tid b l) (reads l) else none) = some (active, sMem) ∧ sMem 0 = some v ∧
      (v : WithZero V) = ∑ l ∈ Finset.range c.blockSize, total f (c.tid b l :: reads l) ∧
      c.writeBack b c.blockSize active v dest = c.store b v dest := by
  have htid := fun l hl => @Launch.tid_lt c b l hactive hb hl
  have hpos : 0 < c.blockSize := hB ▸ Nat.pow_pos (by norm_num)
  have hvalue : ∀ l < c.blockSize, ∃ v, value (c.src source dest) (c.tid b l) (reads l) = some v ∧
      (v : WithZero V) = total f (c.tid b l :: reads l) := fun l hl =>
    value_spec fun i hi => hsrc i (by
      rcases List.mem_cons.mp hi with rfl | hi
      · exact htid l hl
      · exact (hreads l hl).lt i hi)
  have : Nonempty V := ⟨(hvalue 0 hpos).choose⟩
  choose! g hg using hvalue
  have hslots : ∀ l < 2^k, (if l < c.blockSize ∧ c.tid b l < c.srcCount then
      value (c.src source dest) (c.tid b l) (reads l) else none) = some (g l) := fun l hl => by
    rw [← hB] at hl
    rw [if_pos ⟨hl, htid l hl⟩, (hg l hl).1]
  obtain ⟨active, sMem, v, hreduce, hzero, hsum, hactive'⟩ := reduceShared_spec hB.ge hslots
    fun l => decide (c.tid b l < c.srcCount)
  have hfilter : (List.range c.blockSize).filter active = [0] := by
    rw [hactive']
    split_ifs with hk
    · have hone : c.blockSize = 1 := by rw [hB, hk, pow_zero]
      rw [hone, List.range_one, List.filter_cons_of_pos (by simpa using htid 0 hpos), List.filter_nil]
    · exact filter_range_zero hpos
  refine ⟨active, sMem, v, ?_, hzero, ?_, ?_⟩
  · rw [← hB] at hreduce
    exact hreduce
  · rw [hsum, ← hB]
    exact Finset.sum_congr rfl fun l hl => (hg l (Finset.mem_range.mp hl)).2
  · rw [Launch.writeBack, hfilter]
    rfl

/-- A block adds up what its threads read. -/
theorem Block.spec (h : Block c source b dest dest') : ∃ reads : ℕ → List ℕ, ∃ v : V,
    (∀ l < c.blockSize, Reads c.srcCount c.globalThreadCount ((c.tid b l + c.globalThreadCount) % 2^32) (reads l)) ∧
    (v : WithZero V) = ∑ l ∈ Finset.range c.blockSize, total f (c.tid b l :: reads l) ∧ dest' = c.store b v dest := by
  obtain ⟨hreads, hshared, hzero⟩ := h
  rename_i reads active sMem v
  have htid := fun l hl => @Launch.tid_lt c b l hactive hb hl
  have hreads' := fun l hl => hreads l hl (htid l hl)
  obtain ⟨active', sMem', v', hreduce, hzero', hsum, hwrite⟩ := reduceBlock_spec hB hactive hb hsrc hreads'
  obtain ⟨rfl, rfl⟩ := Prod.mk.inj (Option.some_inj.mp (hshared.symm.trans hreduce))
  obtain rfl := Option.some_inj.mp (hzero.symm.trans hzero')
  exact ⟨reads, v, hreads', hsum, hwrite⟩

theorem exists_block (hreads : ∀ l < c.blockSize, ∃ reads,
    Reads c.srcCount c.globalThreadCount ((c.tid b l + c.globalThreadCount) % 2^32) reads) :
    ∃ v : V, Block c source b dest (c.store b v dest) := by
  choose! reads hreads using hreads
  obtain ⟨active, sMem, v, hreduce, hzero, -, hwrite⟩ := reduceBlock_spec hB hactive hb hsrc hreads
  exact ⟨v, hwrite ▸ .mk (fun l hl _ => hreads l hl) hreduce hzero⟩

end Active

/-- The blocks do not write what other blocks read. -/
def Launch.Separate (c : Launch) : Prop := ∀ offset, c.srcOffset = some offset → 1 < c.gridSize → c.gridSize ≤ offset

theorem Launch.Separate.src_store (hsep : c.Separate) (hb : b < c.gridSize) (hone : 1 < c.gridSize) (v : V) (i : ℕ) :
    c.src source (c.store b v dest) i = c.src source dest i := by
  unfold Launch.src
  cases hoffset : c.srcOffset with
  | none => rfl
  | some offset =>
    have := hsep offset hoffset hone
    exact Function.update_of_ne (by omega) _ _

theorem Launch.Separate.src_rest (hsep : c.Separate) {blocks : List ℕ} (hnodup : (b :: blocks).Nodup)
    (hlt : ∀ b' ∈ b :: blocks, b' < c.gridSize) (hsrc : ∀ i < c.srcCount, c.src source dest i = some (f i)) (v : V)
    (hne : blocks ≠ []) : ∀ i < c.srcCount, c.src source (c.store b v dest) i = some (f i) := fun i hi => by
  obtain ⟨b', rest, rfl⟩ := List.exists_cons_of_ne_nil hne
  have hb := hlt b (by simp)
  have hb' := hlt b' (by simp)
  have hbb : b ≠ b' := fun he => (List.nodup_cons.mp hnodup).1 (by simp [he])
  rw [hsep.src_store hb (by omega) v i, hsrc i hi]

section Launch

variable (hB : c.blockSize = 2^k) (hactive : c.globalThreadCount ≤ c.srcCount) (hsep : c.Separate) {blocks : List ℕ}
include hB hactive hsep

theorem Blocks.spec (h : Blocks c source blocks dest dest') (hnodup : blocks.Nodup) (hlt : ∀ b ∈ blocks, b < c.gridSize)
    (hsrc : blocks ≠ [] → ∀ i < c.srcCount, c.src source dest i = some (f i)) :
    ∃ reads : ℕ → ℕ → List ℕ, ∃ v : ℕ → V,
      (∀ b ∈ blocks, ∀ l < c.blockSize,
        Reads c.srcCount c.globalThreadCount ((c.tid b l + c.globalThreadCount) % 2^32) (reads b l)) ∧
      (∀ b ∈ blocks, (v b : WithZero V) = ∑ l ∈ Finset.range c.blockSize, total f (c.tid b l :: reads b l)) ∧
      ∀ i, dest' i = if i ∈ blocks then if c.accumulate then add (dest i) (some (v i)) else some (v i) else dest i := by
  induction h with
  | nil => exact ⟨fun _ _ => [], f, by simp, by simp, by simp⟩
  | @cons b blocks dest dest' dest'' hblock hrest ih =>
    have hsrc' := hsrc (List.cons_ne_nil _ _)
    obtain ⟨hb, hnodup'⟩ := List.nodup_cons.mp hnodup
    obtain ⟨reads₀, v₀, hreads₀, hv₀, rfl⟩ := hblock.spec hB hactive (hlt b (List.mem_cons_self ..)) hsrc'
    obtain ⟨reads, v, hreads, hv, hdest⟩ := ih hnodup' (fun b' hb' => hlt b' (List.mem_cons_of_mem _ hb'))
      (hsep.src_rest hnodup hlt hsrc' v₀)
    have hne : ∀ b' ∈ blocks, b' ≠ b := fun b' hb' he => hb (he ▸ hb')
    refine ⟨Function.update reads b reads₀, Function.update v b v₀, fun b' hb' => ?_, fun b' hb' => ?_, fun i => ?_⟩
    · rcases List.mem_cons.mp hb' with rfl | hb'
      · rwa [Function.update_self]
      · rw [Function.update_of_ne (hne b' hb')]
        exact hreads b' hb'
    · rcases List.mem_cons.mp hb' with rfl | hb'
      · rwa [Function.update_self, Function.update_self]
      · rw [Function.update_of_ne (hne b' hb'), Function.update_of_ne (hne b' hb')]
        exact hv b' hb'
    · rw [hdest i, Launch.store]
      by_cases hi : i = b
      · subst hi
        rw [if_neg hb, if_pos (List.mem_cons_self ..), Function.update_self, Function.update_self]
      · rw [Function.update_of_ne hi, Function.update_of_ne hi]
        simp only [List.mem_cons, hi, false_or]

theorem exists_blocks (hnodup : blocks.Nodup) (hlt : ∀ b ∈ blocks, b < c.gridSize)
    (hsrc : blocks ≠ [] → ∀ i < c.srcCount, c.src source dest i = some (f i))
    (hreads : ∀ b < c.gridSize, ∀ l < c.blockSize, ∃ reads,
      Reads c.srcCount c.globalThreadCount ((c.tid b l + c.globalThreadCount) % 2^32) reads) :
    ∃ dest', Blocks c source blocks dest dest' := by
  induction blocks generalizing dest with
  | nil => exact ⟨dest, .nil⟩
  | cons b blocks ih =>
    have hsrc' := hsrc (List.cons_ne_nil _ _)
    have hb := hlt b (List.mem_cons_self ..)
    obtain ⟨v, hblock⟩ := exists_block hB hactive hb hsrc' (hreads b hb)
    obtain ⟨dest', hrest⟩ := ih (List.nodup_cons.mp hnodup).2 (fun b' hb' => hlt b' (List.mem_cons_of_mem _ hb'))
      (hsep.src_rest hnodup hlt hsrc' v)
    exact ⟨dest', .cons hblock hrest⟩

end Launch

theorem sum_blocks {A : Type*} [AddCommMonoid A] (g : ℕ → ℕ → A) (G B : ℕ) :
    ∑ b ∈ Finset.range G, ∑ l ∈ Finset.range B, g b l = ∑ t ∈ Finset.range (G * B), g (t / B) (t % B) := by
  induction G with
  | zero => simp
  | succ G ih =>
    rw [Finset.sum_range_succ, ih, Nat.succ_mul, Finset.sum_range_add]
    congr 1
    refine Finset.sum_congr rfl fun l hl => ?_
    have hlt := Finset.mem_range.mp hl
    rw [Nat.mul_comm, Nat.mul_add_div (by omega), Nat.mul_add_mod, Nat.div_eq_of_lt hlt, Nat.mod_eq_of_lt hlt, add_zero]

theorem Blocks.results (hB : c.blockSize = 2^k) (hactive : c.globalThreadCount ≤ c.srcCount) (hsep : c.Separate)
    {blocks : List ℕ} (hblocks : blocks.Perm (List.range c.gridSize)) (h : Blocks c source blocks dest dest')
    (hsrc : ∀ i < c.srcCount, c.src source dest i = some (f i)) :
    ∃ reads : ℕ → List ℕ, ∃ v : ℕ → V,
      (∀ t < c.globalThreadCount, Reads c.srcCount c.globalThreadCount ((t + c.globalThreadCount) % 2^32) (reads t)) ∧
      ∑ b ∈ Finset.range c.gridSize, (v b : WithZero V) =
        ∑ t ∈ Finset.range c.globalThreadCount, total f (t :: reads t) ∧
      ∀ i, dest' i = if i < c.gridSize then if c.accumulate then add (dest i) (some (v i)) else some (v i) else dest i := by
  have hmem : ∀ b, b ∈ blocks ↔ b < c.gridSize := fun b => by rw [hblocks.mem_iff, List.mem_range]
  obtain ⟨reads, v, hreads, hv, hdest⟩ := h.spec hB hactive hsep (hblocks.nodup_iff.mpr List.nodup_range)
    (fun b hb => (hmem b).mp hb) fun _ => hsrc
  have hpos : 0 < c.blockSize := hB ▸ Nat.pow_pos (by norm_num)
  have htid : ∀ t, c.tid (t / c.blockSize) (t % c.blockSize) = t := fun t => by
    rw [Launch.tid, Nat.mul_comm]
    exact Nat.div_add_mod t c.blockSize
  refine ⟨fun t => reads (t / c.blockSize) (t % c.blockSize), v, fun t ht => ?_, ?_, fun i => ?_⟩
  · have hread := hreads (t / c.blockSize) ((hmem _).mpr ((Nat.div_lt_iff_lt_mul hpos).mpr ht)) (t % c.blockSize)
      (Nat.mod_lt t hpos)
    rwa [htid] at hread
  · rw [Finset.sum_congr rfl fun b hb => hv b ((hmem b).mpr (Finset.mem_range.mp hb)),
      sum_blocks fun b l => total f (c.tid b l :: reads b l)]
    simp only [htid]
    rfl
  · rw [hdest i]
    simp only [hmem]

/-- All elements are in the results if the indices do not wrap around. -/
theorem Blocks.sum_eq (hB : c.blockSize = 2^k) (hactive : c.globalThreadCount ≤ c.srcCount) (hsep : c.Separate)
    (hgrid : 0 < c.gridSize) (hfits : c.srcCount + c.globalThreadCount ≤ 2^32) {blocks : List ℕ}
    (hblocks : blocks.Perm (List.range c.gridSize)) (h : Blocks c source blocks dest dest')
    (hsrc : ∀ i < c.srcCount, c.src source dest i = some (f i)) :
    ∃ v : ℕ → V, ∑ b ∈ Finset.range c.gridSize, (v b : WithZero V) = ∑ i ∈ Finset.range c.srcCount, (f i : WithZero V) ∧
      ∀ i, dest' i = if i < c.gridSize then if c.accumulate then add (dest i) (some (v i)) else some (v i) else dest i := by
  obtain ⟨reads, v, hreads, hv, hdest⟩ := h.results hB hactive hsep hblocks hsrc
  have hpos : 0 < c.globalThreadCount := Nat.mul_pos hgrid (hB ▸ Nat.pow_pos (by norm_num))
  exact ⟨v, hv.trans (sum_threads hpos hactive hfits hreads fun i => (f i : WithZero V)), hdest⟩

theorem exists_blocks_of_fits (hB : c.blockSize = 2^k) (hactive : c.globalThreadCount ≤ c.srcCount) (hsep : c.Separate)
    (hgrid : 0 < c.gridSize) (hfits : c.srcCount + c.globalThreadCount ≤ 2^32) {blocks : List ℕ}
    (hblocks : blocks.Perm (List.range c.gridSize)) (hsrc : ∀ i < c.srcCount, c.src source dest i = some (f i)) :
    ∃ dest', Blocks c source blocks dest dest' := by
  have hpos : 0 < c.globalThreadCount := Nat.mul_pos hgrid (hB ▸ Nat.pow_pos (by norm_num))
  refine exists_blocks hB hactive hsep (hblocks.nodup_iff.mpr List.nodup_range) (fun b hb => ?_) (fun _ => hsrc)
    fun b _ l _ => exists_reads hpos hfits _
  rwa [hblocks.mem_iff, List.mem_range] at hb

end Block

end PIConGPU.KernelReduction
