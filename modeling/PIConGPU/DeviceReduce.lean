import PIConGPU.KernelReduction

/-!
# Reduction of an array on the device

The first launch reduces the array of the caller to a buffer. The buffer is then reduced in place: the results of a
launch are added to the elements at the head of the buffer, which the launch does not read, until one block is enough.
-/
namespace PIConGPU.DeviceReduce

open KernelReduction

def getThreadsPerBlock (threads : ℕ) : ℕ :=
  if 512 ≤ threads then 512
  else if 256 ≤ threads then 256
  else if 128 ≤ threads then 128
  else if 64 ≤ threads then 64
  else if 32 ≤ threads then 32
  else if 16 ≤ threads then 16
  else if 8 ≤ threads then 8
  else if 4 ≤ threads then 4
  else if 2 ≤ threads then 2
  else 1

def array {V : Type*} (n : ℕ) (src : ℕ → V) (i : ℕ) : Option V := if i < n then some (src i) else none

/-- Sizes in bytes: of the buffer, of the shared memory of a block and of an element. -/
structure Limits where
  byte : ℕ
  sharedMemByte : ℕ
  sizePerElement : ℕ

namespace Limits

variable (limits : Limits)

def optimalThreadsPerBlock (n : ℕ) : ℕ := getThreadsPerBlock (min (limits.sharedMemByte / limits.sizePerElement) n)

def nBuffer : ℕ := limits.byte / limits.sizePerElement

/-- The launch on the array of the caller. -/
def firstLaunch (n : ℕ) : Launch :=
  let blockcount := limits.optimalThreadsPerBlock n
  let threads := limits.nBuffer * blockcount * 2 % 2^32
  let threads := if n < threads then n else threads
  let blocks := threads / 2 / blockcount
  ⟨none, n, if blocks = 0 then 1 else blocks, blockcount, false⟩

/-- How far apart the elements of a thread of the first launch are: two elements for each thread, with a full buffer at
most, in whole blocks. -/
def stride (n : ℕ) : ℕ :=
  max 1 (min n (limits.nBuffer * limits.optimalThreadsPerBlock n * 2) / 2 / limits.optimalThreadsPerBlock n) *
    limits.optimalThreadsPerBlock n

def blocks (n : ℕ) : ℕ :=
  let blocks := n / 2 / limits.optimalThreadsPerBlock n
  if blocks = 0 ∧ 1 < n then 1 else blocks

def blockOffset (n : ℕ) : ℕ := limits.blocks n ⌈/⌉ limits.optimalThreadsPerBlock n

/-- The elements at the head of the buffer that a launch of several blocks does not read. -/
def head (n : ℕ) : ℕ := limits.blockOffset n * limits.optimalThreadsPerBlock n

inductive Rounds : ℕ → List Launch → Prop
  | done {n : ℕ} (h : limits.blocks n = 0) : Rounds n []
  | many {n : ℕ} {launches : List Launch} (h : 1 < limits.blocks n) (hrest : Rounds (limits.head n) launches) :
    Rounds n (⟨some (limits.head n), n - limits.head n, limits.blocks n - limits.blockOffset n,
      limits.optimalThreadsPerBlock n, true⟩ :: launches)
  | one {n : ℕ} {launches : List Launch} (h : limits.blocks n = 1) (hrest : Rounds 1 launches) :
    Rounds n (⟨some 0, n, 1, limits.optimalThreadsPerBlock n, false⟩ :: launches)

/-- The elements that a launch of several blocks reads from the buffer are not those that it writes. -/
def DisjointAccess (c : Launch) : Prop :=
  1 < c.gridSize → ∀ offset, c.srcOffset = some offset →
    Disjoint (Finset.Ico offset (offset + c.srcCount)) (Finset.range c.gridSize)

/-- The algorithm returns the sum of all elements, with every order of the blocks. -/
def Reduces (n : ℕ) : Prop :=
  ∃ launches, limits.Rounds (limits.firstLaunch n).gridSize launches ∧
    (∀ c ∈ limits.firstLaunch n :: launches, c.gridSize ≤ limits.nBuffer ∧ DisjointAccess c) ∧
    ∀ (V : Type) [AddCommSemigroup V] (src : ℕ → V),
      Runs (array n src) (limits.firstLaunch n :: launches) (fun _ => none) fun dest =>
        ∃ v, dest 0 = some v ∧ (v : WithZero V) = ∑ i ∈ Finset.range n, (src i : WithZero V)

end Limits

theorem getThreadsPerBlock_spec {threads : ℕ} (h : 0 < threads) :
    (∃ k, getThreadsPerBlock threads = 2^k) ∧ getThreadsPerBlock threads ≤ threads ∧ getThreadsPerBlock threads ≤ 512 ∧
      (2 ≤ threads → 2 ≤ getThreadsPerBlock threads) := by
  have hpow : ∃ k ∈ Finset.range 10, getThreadsPerBlock threads = 2^k := by
    unfold getThreadsPerBlock
    split_ifs <;> decide
  obtain ⟨k, -, hk⟩ := hpow
  refine ⟨⟨k, hk⟩, ?_⟩
  unfold getThreadsPerBlock
  split_ifs <;> omega

namespace Limits

structure Valid (limits : Limits) : Prop where
  size_pos : 0 < limits.sizePerElement
  byte : limits.sizePerElement ≤ limits.byte
  shared : 2 * limits.sizePerElement ≤ limits.sharedMemByte
  threads : limits.nBuffer * 1024 < 2^32

variable {limits : Limits} (h : limits.Valid) {n : ℕ}
include h

theorem Valid.optimalThreadsPerBlock_spec (hn : 0 < n) :
    (∃ k, limits.optimalThreadsPerBlock n = 2^k) ∧ limits.optimalThreadsPerBlock n ≤ n ∧
      limits.optimalThreadsPerBlock n ≤ 512 ∧ 0 < limits.optimalThreadsPerBlock n ∧
      (2 ≤ n → 2 ≤ limits.optimalThreadsPerBlock n) := by
  have hborder : 2 ≤ limits.sharedMemByte / limits.sizePerElement := (Nat.le_div_iff_mul_le h.size_pos).mpr h.shared
  obtain ⟨⟨k, hk⟩, hle, h512, htwo⟩ := @getThreadsPerBlock_spec
    (min (limits.sharedMemByte / limits.sizePerElement) n) (lt_min (by omega) hn)
  refine ⟨⟨k, hk⟩, hle.trans (min_le_right _ _), h512, ?_, fun hn2 => htwo (le_min hborder hn2)⟩
  rw [optimalThreadsPerBlock, hk]
  exact Nat.pow_pos (by norm_num)

theorem Valid.gridSize_firstLaunch (hn : 0 < n) : (limits.firstLaunch n).gridSize =
    max 1 (min n (limits.nBuffer * limits.optimalThreadsPerBlock n * 2) / 2 / limits.optimalThreadsPerBlock n) := by
  obtain ⟨-, -, h512, -, -⟩ := h.optimalThreadsPerBlock_spec hn
  have hthreads := h.threads
  have hmul : limits.nBuffer * limits.optimalThreadsPerBlock n * 2 ≤ limits.nBuffer * 1024 := by
    rw [Nat.mul_assoc]
    exact Nat.mul_le_mul_left _ (by omega)
  have hmin : ∀ m, (if n < m then n else m) = min n m := fun m => by
    split_ifs with hlt
    · exact (min_eq_left hlt.le).symm
    · exact (min_eq_right (not_lt.mp hlt)).symm
  have hmax : ∀ m, (if m = 0 then 1 else m) = max 1 m := fun m => by
    split_ifs <;> omega
  simp only [firstLaunch, Nat.mod_eq_of_lt (hmul.trans_lt hthreads), hmin, hmax]

theorem Valid.globalThreadCount_firstLaunch (hn : 0 < n) :
    (limits.firstLaunch n).globalThreadCount = limits.stride n :=
  congrArg (· * limits.optimalThreadsPerBlock n) (h.gridSize_firstLaunch hn)

theorem Valid.firstLaunch_spec (hn : 0 < n) : 0 < (limits.firstLaunch n).gridSize ∧
    (limits.firstLaunch n).gridSize ≤ limits.nBuffer ∧ (limits.firstLaunch n).globalThreadCount ≤ n := by
  obtain ⟨-, hle, -, hpos, -⟩ := h.optimalThreadsPerBlock_spec hn
  have hbuffer : 0 < limits.nBuffer := Nat.div_pos h.byte h.size_pos
  rw [h.globalThreadCount_firstLaunch hn, h.gridSize_firstLaunch hn, stride]
  set B := limits.optimalThreadsPerBlock n
  set threads := min n (limits.nBuffer * B * 2)
  have hthreads_le : threads ≤ n ∧ threads ≤ limits.nBuffer * B * 2 := ⟨min_le_left _ _, min_le_right _ _⟩
  have hdiv : threads / 2 / B ≤ limits.nBuffer := by
    rw [Nat.div_le_iff_le_mul_add_pred hpos, Nat.mul_comm]
    omega
  have hmul_div := Nat.div_mul_le_self (threads / 2) B
  rcases Nat.eq_zero_or_pos (threads / 2 / B) with hzero | hblocks
  · rw [hzero, max_eq_left (Nat.zero_le 1), Nat.one_mul]
    exact ⟨one_pos, hbuffer, hle⟩
  · rw [max_eq_right (Nat.succ_le_of_lt hblocks)]
    exact ⟨hblocks, hdiv, by omega⟩

omit h in
theorem blocks_eq_zero_iff (hn : 0 < n) : limits.blocks n = 0 ↔ n = 1 := by
  unfold blocks
  dsimp only
  split_ifs with hone
  · exact iff_of_false not_false hone.2.ne'
  · constructor
    · intro hzero
      have := not_and.mp hone hzero
      omega
    · rintro rfl
      simp

theorem Valid.many_spec (hn : 0 < n) (hmany : 1 < limits.blocks n) :
    limits.blockOffset n < limits.blocks n ∧ limits.blocks n ≤ limits.head n ∧ 0 < limits.head n ∧ limits.head n < n ∧
      limits.blocks n * limits.optimalThreadsPerBlock n ≤ n := by
  obtain ⟨-, -, -, hpos, htwo⟩ := h.optimalThreadsPerBlock_spec hn
  have hblocks : limits.blocks n = n / 2 / limits.optimalThreadsPerBlock n := by
    unfold blocks at hmany ⊢
    dsimp only at hmany ⊢
    split_ifs at hmany ⊢ with hone
    · omega
    · rfl
  have hn2 : 2 ≤ n := by
    by_contra hlt
    obtain rfl : n = 1 := by omega
    rw [hblocks] at hmany
    simp at hmany
  have hB := htwo hn2
  have hmul := Nat.div_mul_le_self (n / 2) (limits.optimalThreadsPerBlock n)
  rw [← hblocks] at hmul
  have hoffset : limits.blockOffset n < limits.blocks n := by
    rw [blockOffset, Nat.ceilDiv_eq_add_pred_div, Nat.div_lt_iff_lt_mul hpos]
    have := Nat.add_le_mul hmany hB
    omega
  have hhead : limits.blocks n ≤ limits.head n := by
    have := le_smul_ceilDiv (b := limits.blocks n) hpos
    rwa [smul_eq_mul, Nat.mul_comm] at this
  refine ⟨hoffset, hhead, by omega, ?_, by omega⟩
  have hlt : limits.head n < limits.blocks n * limits.optimalThreadsPerBlock n := Nat.mul_lt_mul_of_pos_right hoffset hpos
  omega

theorem Valid.exists_rounds (hn : 0 < n) : ∃ launches, limits.Rounds n launches := by
  induction n using Nat.strong_induction_on with
  | _ n ih =>
    rcases Nat.lt_trichotomy (limits.blocks n) 1 with hzero | hone | hmany
    · exact ⟨[], .done (by omega)⟩
    · have hne : n ≠ 1 := fun hn1 => by
        rw [(blocks_eq_zero_iff hn).mpr hn1] at hone
        omega
      obtain ⟨launches, hrest⟩ := ih 1 (by omega) one_pos
      exact ⟨_, .one hone hrest⟩
    · obtain ⟨-, -, hpos, hlt, -⟩ := h.many_spec hn hmany
      obtain ⟨launches, hrest⟩ := ih _ hlt hpos
      exact ⟨_, .many hmany hrest⟩

omit h in
theorem disjointAccess_of_separate {c : Launch} (hsep : c.Separate) : DisjointAccess c := fun hone offset hoffset => by
  have hle := hsep offset hoffset hone
  rw [Finset.disjoint_left]
  intro i hi hi'
  have := Finset.mem_Ico.mp hi
  have := Finset.mem_range.mp hi'
  omega

section Sum

variable {V : Type*} [AddCommSemigroup V] {source dest : ℕ → Option V} {f : ℕ → V} {launches : List Launch}

theorem Valid.run_one (hn : 0 < n) (hfits : n * 2 ≤ 2^32) (hdest : ∀ i < n, dest i = some (f i))
    {post : (ℕ → Option V) → Prop}
    (hpost : ∀ dest' : ℕ → Option V, (∃ v : ℕ → V, (∀ i < 1, dest' i = some (v i)) ∧
      ∑ i ∈ Finset.range 1, (v i : WithZero V) = ∑ i ∈ Finset.range n, (f i : WithZero V)) →
      Runs source launches dest' post) :
    Runs source (⟨some 0, n, 1, limits.optimalThreadsPerBlock n, false⟩ :: launches) dest post := by
  obtain ⟨⟨k, hk⟩, hle, -, -, -⟩ := h.optimalThreadsPerBlock_spec hn
  set c : Launch := ⟨some 0, n, 1, limits.optimalThreadsPerBlock n, false⟩ with hc
  have hactive : c.globalThreadCount ≤ c.srcCount := (Nat.one_mul _).le.trans hle
  have hsep : c.Separate := fun _ _ hone => absurd hone (lt_irrefl 1)
  have hfits' : c.srcCount + c.globalThreadCount ≤ 2^32 := by
    have : c.srcCount = n := rfl
    omega
  have hsrc : ∀ i < c.srcCount, c.src source dest i = some (f i) := fun i hi =>
    (congrArg dest (Nat.zero_add i)).trans (hdest i hi)
  intro blocks hblocks
  refine ⟨exists_blocks_of_fits hk hactive hsep one_pos hfits' hblocks hsrc, fun dest' hrun => hpost dest' ?_⟩
  obtain ⟨v, hv, hdest'⟩ := hrun.sum_eq hk hactive hsep one_pos hfits' hblocks hsrc
  exact ⟨v, fun i hi => (hdest' i).trans (if_pos hi), hv⟩

/-- A launch on the buffer with several blocks keeps the sum in fewer elements. -/
theorem Valid.run_many (hn : 0 < n) (hmany : 1 < limits.blocks n) (hfits : n * 2 ≤ 2^32)
    (hdest : ∀ i < n, dest i = some (f i)) {post : (ℕ → Option V) → Prop}
    (hpost : ∀ dest' : ℕ → Option V, (∃ v : ℕ → V, (∀ i < limits.head n, dest' i = some (v i)) ∧
      ∑ i ∈ Finset.range (limits.head n), (v i : WithZero V) = ∑ i ∈ Finset.range n, (f i : WithZero V)) →
      Runs source launches dest' post) :
    Runs source (⟨some (limits.head n), n - limits.head n, limits.blocks n - limits.blockOffset n,
      limits.optimalThreadsPerBlock n, true⟩ :: launches) dest post := by
  obtain ⟨⟨k, hk⟩, -, -, -, -⟩ := h.optimalThreadsPerBlock_spec hn
  obtain ⟨hoffset, hhead, hpos, hlt, hmul⟩ := h.many_spec hn hmany
  set c : Launch := ⟨some (limits.head n), n - limits.head n, limits.blocks n - limits.blockOffset n,
    limits.optimalThreadsPerBlock n, true⟩ with hc
  have hcount : c.srcCount = n - limits.head n := rfl
  have hgrid : c.gridSize = limits.blocks n - limits.blockOffset n := rfl
  have hthreads : c.globalThreadCount =
      limits.blocks n * limits.optimalThreadsPerBlock n - limits.head n := Nat.sub_mul ..
  have hactive : c.globalThreadCount ≤ c.srcCount := by omega
  have hsep : c.Separate := fun offset ho _ => by
    obtain rfl : limits.head n = offset := Option.some.inj ho
    omega
  have hfits' : c.srcCount + c.globalThreadCount ≤ 2^32 := by omega
  have hsrc : ∀ i < c.srcCount, c.src source dest i = some (f (limits.head n + i)) := fun i hi =>
    hdest (limits.head n + i) (by omega)
  intro blocks hblocks
  refine ⟨exists_blocks_of_fits hk hactive hsep (by omega) hfits' hblocks hsrc, fun dest' hrun => hpost dest' ?_⟩
  obtain ⟨v, hv, hdest'⟩ := hrun.sum_eq hk hactive hsep (by omega) hfits' hblocks hsrc
  refine ⟨fun i => if i < c.gridSize then f i + v i else f i, fun i hi => ?_, ?_⟩
  · dsimp only
    by_cases hi' : i < c.gridSize
    · rw [hdest' i, if_pos hi', if_pos hi', if_pos rfl, hdest i (by omega), add_some]
    · rw [hdest' i, if_neg hi', if_neg hi', hdest i (by omega)]
  · have hsplit : limits.head n = c.gridSize + (limits.head n - c.gridSize) := by omega
    have hsplit' : n = limits.head n + c.srcCount := by omega
    have hfirst : ∑ i ∈ Finset.range c.gridSize, ((if i < c.gridSize then f i + v i else f i : V) : WithZero V) =
        ∑ i ∈ Finset.range c.gridSize, (f i : WithZero V) + ∑ i ∈ Finset.range c.srcCount,
          (f (limits.head n + i) : WithZero V) := by
      rw [← hv, ← Finset.sum_add_distrib]
      refine Finset.sum_congr rfl fun i hi => ?_
      rw [if_pos (Finset.mem_range.mp hi), WithZero.coe_add]
    have hsecond : ∑ i ∈ Finset.range (limits.head n - c.gridSize),
        ((if c.gridSize + i < c.gridSize then f (c.gridSize + i) + v (c.gridSize + i) else f (c.gridSize + i) : V) :
          WithZero V) = ∑ i ∈ Finset.range (limits.head n - c.gridSize), (f (c.gridSize + i) : WithZero V) :=
      Finset.sum_congr rfl fun i _ => by rw [if_neg (by omega)]
    have htotal : ∑ i ∈ Finset.range n, (f i : WithZero V) =
        ∑ i ∈ Finset.range c.gridSize, (f i : WithZero V) +
          ∑ i ∈ Finset.range (limits.head n - c.gridSize), (f (c.gridSize + i) : WithZero V) +
          ∑ i ∈ Finset.range c.srcCount, (f (limits.head n + i) : WithZero V) := by
      conv_lhs => rw [hsplit', Finset.sum_range_add]
      congr 1
      conv_lhs => rw [hsplit, Finset.sum_range_add]
    conv_lhs => rw [hsplit, Finset.sum_range_add]
    rw [hfirst, hsecond, htotal, add_right_comm]

/-- The loop leaves the sum in the first element. -/
theorem Valid.rounds_runs (hn : 0 < n) (hfits : n * 2 ≤ 2^32) (hrounds : limits.Rounds n launches)
    (hdest : ∀ i < n, dest i = some (f i)) :
    Runs source launches dest fun dest' =>
      ∃ v, dest' 0 = some v ∧ (v : WithZero V) = ∑ i ∈ Finset.range n, (f i : WithZero V) := by
  induction hrounds generalizing dest f with
  | @done n hzero =>
    obtain rfl := (blocks_eq_zero_iff hn).mp hzero
    exact ⟨f 0, hdest 0 one_pos, by rw [Finset.sum_range_one]⟩
  | @many n launches hmany hrest ih =>
    obtain ⟨-, -, hpos, hlt, -⟩ := h.many_spec hn hmany
    refine h.run_many hn hmany hfits hdest fun dest' hdest' => ?_
    obtain ⟨v, hv, hsum⟩ := hdest'
    rw [← hsum]
    exact ih hpos (by omega) hv
  | @one n launches hone hrest ih =>
    refine h.run_one hn hfits hdest fun dest' hdest' => ?_
    obtain ⟨v, hv, hsum⟩ := hdest'
    rw [← hsum]
    exact ih one_pos (by norm_num) hv

end Sum

theorem Valid.rounds_access (hn : 0 < n) (hbuffer : n ≤ limits.nBuffer) {launches : List Launch}
    (hrounds : limits.Rounds n launches) : ∀ c ∈ launches, c.gridSize ≤ limits.nBuffer ∧ DisjointAccess c := by
  induction hrounds with
  | done => exact fun c hc => absurd hc List.not_mem_nil
  | @many n launches hmany hrest ih =>
    obtain ⟨hoffset, hhead, hpos, hlt, hmul⟩ := h.many_spec hn hmany
    refine List.forall_mem_cons.mpr ⟨⟨?_, disjointAccess_of_separate fun offset ho _ => ?_⟩, ih hpos (by omega)⟩
    · dsimp only
      omega
    · obtain rfl : limits.head n = offset := Option.some.inj ho
      dsimp only
      omega
  | @one n launches hone hrest ih =>
    refine List.forall_mem_cons.mpr ⟨⟨?_, fun h => absurd h (lt_irrefl 1)⟩, ih one_pos (by omega)⟩
    dsimp only
    omega

section First

variable {V : Type} [AddCommSemigroup V] {launches : List Launch}

omit h [AddCommSemigroup V] in
theorem array_spec (src : ℕ → V) (dest : ℕ → Option V) : ∀ i < (limits.firstLaunch n).srcCount,
    (limits.firstLaunch n).src (array n src) dest i = some (src i) := fun _ hi => if_pos hi

omit h in
theorem firstLaunch_separate : (limits.firstLaunch n).Separate := fun _ hoffset => nomatch hoffset

theorem Valid.rest_runs (hn : 0 < n) (hrounds : limits.Rounds (limits.firstLaunch n).gridSize launches)
    {source dest : ℕ → Option V} {v : ℕ → V} (hdest : ∀ i < (limits.firstLaunch n).gridSize, dest i = some (v i)) :
    Runs source launches dest fun dest' => ∃ w, dest' 0 = some w ∧
      (w : WithZero V) = ∑ b ∈ Finset.range (limits.firstLaunch n).gridSize, (v b : WithZero V) := by
  obtain ⟨hgrid, hbuffer, -⟩ := h.firstLaunch_spec hn
  have hthreads := h.threads
  exact h.rounds_runs hgrid (by omega) hrounds hdest

theorem Valid.reduces_of_fits (hn : 0 < n) (hfits : n + (limits.firstLaunch n).globalThreadCount ≤ 2^32) :
    limits.Reduces n := by
  obtain ⟨hgrid, hbuffer, hactive⟩ := h.firstLaunch_spec hn
  obtain ⟨⟨k, hk⟩, -, -, -, -⟩ := h.optimalThreadsPerBlock_spec hn
  obtain ⟨launches, hrounds⟩ := h.exists_rounds hgrid
  have haccess : (limits.firstLaunch n).gridSize ≤ limits.nBuffer ∧ DisjointAccess (limits.firstLaunch n) :=
    ⟨hbuffer, disjointAccess_of_separate firstLaunch_separate⟩
  refine ⟨launches, hrounds, List.forall_mem_cons.mpr ⟨haccess, h.rounds_access hgrid hbuffer hrounds⟩, ?_⟩
  intro V _ src blocks hblocks
  refine ⟨exists_blocks_of_fits hk hactive firstLaunch_separate hgrid hfits hblocks (array_spec src _), ?_⟩
  intro dest hrun
  obtain ⟨v, hv, hdest⟩ := hrun.sum_eq hk hactive firstLaunch_separate hgrid hfits hblocks (array_spec src _)
  have hsum : ∑ b ∈ Finset.range (limits.firstLaunch n).gridSize, (v b : WithZero V) =
      ∑ i ∈ Finset.range n, (src i : WithZero V) := hv
  rw [← hsum]
  exact h.rest_runs hn hrounds fun i hi => (hdest i).trans (if_pos hi)

end First

omit h in
/-- If an index wraps around, the first element is read by its own thread and once more. -/
theorem two_le_count {stride : ℕ} {reads : ℕ → List ℕ} (hn : 0 < n) (hpos : 0 < stride) (hle : stride < 2^32)
    (hwrap : 2^32 < n + stride) (hreads : ∀ t < stride, Reads n stride ((t + stride) % 2^32) (reads t)) :
    2 ≤ ∑ t ∈ Finset.range stride, (t :: reads t).count 0 := by
  set t := 2^32 % stride with ht
  have hlt : t < stride := Nat.mod_lt _ hpos
  have hdvd : stride ∣ 2^32 - t := Nat.dvd_sub_mod _
  have hsum : t + stride ≤ 2^32 := by
    have := Nat.le_of_dvd (by omega) hdvd
    omega
  have hmem : 0 ∈ reads t := by
    have hread := hreads t hlt
    rcases hsum.eq_or_lt with heq | hlt'
    · rw [heq, Nat.mod_self] at hread
      exact hread.head_mem hn
    · rw [Nat.mod_eq_of_lt hlt'] at hread
      refine hread.zero_mem hn hwrap hlt' ?_
      rw [← Nat.sub_sub]
      exact Nat.dvd_sub hdvd (dvd_refl stride)
  have hfirst : 1 ≤ ∑ t ∈ Finset.range stride, if t = 0 then 1 else 0 := by
    rw [Finset.sum_ite_eq', if_pos (Finset.mem_range.mpr hpos)]
  have hrest : 1 ≤ ∑ t ∈ Finset.range stride, (reads t).count 0 :=
    (List.count_pos_iff.mpr hmem).trans_le
      (Finset.single_le_sum (f := fun t => (reads t).count 0) (fun _ _ => Nat.zero_le _) (Finset.mem_range.mpr hlt))
  calc 2 ≤ _ := Nat.add_le_add hfirst hrest
    _ = _ := by
      rw [← Finset.sum_add_distrib]
      exact Finset.sum_congr rfl fun t _ => by rw [List.count_cons, Nat.add_comm]; simp

/-- The array with a one at its head shows how often the head is used. -/
theorem Valid.not_reduces (hn : 0 < n) (hlt : n < 2^32)
    (hwrap : 2^32 < n + (limits.firstLaunch n).globalThreadCount) : ¬ limits.Reduces n := by
  rintro ⟨launches, hrounds, -, hruns⟩
  obtain ⟨hgrid, -, hactive⟩ := h.firstLaunch_spec hn
  obtain ⟨⟨k, hk⟩, -, -, hblock, -⟩ := h.optimalThreadsPerBlock_spec hn
  set one : ℕ → ℕ := fun i => if i = 0 then 1 else 0 with hone
  obtain ⟨⟨dest, hblocks⟩, hrest⟩ := hruns ℕ one _ (List.Perm.refl _)
  obtain ⟨reads, v, hreads, hv, hdest⟩ :=
    hblocks.results hk hactive firstLaunch_separate (List.Perm.refl _) (array_spec one _)
  have hexpected := hrest dest hblocks
  have hboth := hexpected.and (h.rest_runs hn hrounds fun i hi => (hdest i).trans (if_pos hi))
  obtain ⟨dest', ⟨x, hx, hxsum⟩, ⟨y, hy, hysum⟩⟩ := hboth.exists
  obtain rfl : x = y := Option.some.inj (hx.symm.trans hy)
  set φ : WithZero ℕ →+ ℕ := WithZero.lift (AddHom.id ℕ)
  have hcoe : ∀ m : ℕ, φ (WithZero.coe m) = m := fun _ => rfl
  have hexpect : x = 1 := by
    have := congrArg φ hxsum
    rw [map_sum, hcoe] at this
    rw [this, Finset.sum_congr rfl fun i _ => hcoe (one i), hone, Finset.sum_ite_eq', if_pos (Finset.mem_range.mpr hn)]
  have htotal : ∀ l : List ℕ, φ (total one l) = l.count 0 := fun l => by
    induction l with
    | nil => exact map_zero φ
    | cons i l ih =>
      rw [total, List.map_cons, List.sum_cons, map_add, hcoe, List.count_cons, Nat.add_comm]
      exact congrArg₂ (· + ·) ih (by simp [hone])
  have hactual : x = ∑ t ∈ Finset.range (limits.firstLaunch n).globalThreadCount, (t :: reads t).count 0 := by
    have := congrArg φ (hysum.trans hv)
    rw [map_sum, hcoe] at this
    rw [this, Finset.sum_congr rfl fun t _ => htotal (t :: reads t)]
  have hpos : 0 < (limits.firstLaunch n).globalThreadCount := Nat.mul_pos hgrid hblock
  have := two_le_count hn hpos (by omega) hwrap hreads
  omega

/-- The reduction works as long as no index of the first launch wraps around. -/
theorem reduces_iff (hn : 0 < n) (hlt : n < 2^32) :
    limits.Reduces n ↔ n + limits.stride n ≤ 2^32 := by
  rw [← h.globalThreadCount_firstLaunch hn]
  constructor
  · intro hreduces
    by_contra hwrap
    exact h.not_reduces hn hlt (not_le.mp hwrap) hreduces
  · exact h.reduces_of_fits hn

end Limits

theorem valid_default : (⟨1024, 4096, 1⟩ : Limits).Valid :=
  ⟨by norm_num, by norm_num, by norm_num, by norm_num [Limits.nBuffer]⟩

theorem reduces_iff_default : (⟨1024, 4096, 1⟩ : Limits).Reduces 5000 ↔
    5000 + (⟨1024, 4096, 1⟩ : Limits).stride 5000 ≤ 2^32 :=
  Limits.reduces_iff valid_default (by norm_num) (by norm_num)

theorem not_reduces_default : (⟨1024, 4096, 1⟩ : Limits).Valid ∧ 0 < 4294967295 ∧ 4294967295 < 2^32 ∧
    ¬ (⟨1024, 4096, 1⟩ : Limits).Reduces 4294967295 :=
  ⟨valid_default, by norm_num, by norm_num,
    valid_default.not_reduces (by norm_num) (by norm_num) (by decide)⟩

end PIConGPU.DeviceReduce
