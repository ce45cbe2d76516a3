import PIConGPU.UsageCounter

/-!
# Chunks on a page of the device heap

A page of the device heap is cut into chunks of one size. Bits tell which of them are in use: up to 32 chunks are
covered by the bitfield in the page table, smaller chunks come in segments of 32 with a mask for each segment at the
end of the page.
-/
namespace PIConGPU.Scatter

/-- The parameters of the heap; sizes are in bytes. -/
structure HeapProperties where
  pagesize : ℕ
  accessblocks : ℕ
  regionsize : ℕ
  wastefactor : ℕ
  deriving DecidableEq

section Bits

def popc (x : BitVec 32) : ℕ := ((List.range 32).filter x.getLsbD).length

/-- The position of the first bit, from 1 on, or 0. -/
def ffs (x : BitVec 32) : ℕ := ((List.range 32).find? x.getLsbD).elim 0 (· + 1)

/-- The next unset bit to the left of `spot`, with a wrap around. -/
def nextspot (bitfield : BitVec 32) (spot spots : ℕ) : ℕ :=
  let rotated := ((bitfield >>> (spot + 1)) ||| (bitfield <<< (spots - (spot + 1)))) &&& ((1#32 <<< spots) - 1)
  (spot + ffs (~~~rotated)) % spots

theorem nextspot_lt (bitfield : BitVec 32) (spot : ℕ) {spots : ℕ} (h : 0 < spots) :
    nextspot bitfield spot spots < spots := Nat.mod_lt _ h

theorem getLsbD_set (x : BitVec 32) {spot : ℕ} (hspot : spot < 32) (i : ℕ) :
    (x ||| (1#32 <<< spot)).getLsbD i = (x.getLsbD i || decide (i = spot)) := by
  rw [BitVec.getLsbD_or, ← BitVec.twoPow_eq, BitVec.getLsbD_twoPow]
  by_cases h : i = spot
  · subst h
    simp [hspot]
  · simp [h, Ne.symm h]

theorem getLsbD_clear (x : BitVec 32) {spot i : ℕ} (h : i ≠ spot) :
    (x &&& ~~~(1#32 <<< spot)).getLsbD i = x.getLsbD i := by
  rw [BitVec.getLsbD_and, BitVec.getLsbD_not, ← BitVec.twoPow_eq, BitVec.getLsbD_twoPow]
  by_cases hi : i < 32
  · simp [hi, Ne.symm h]
  · rw [BitVec.getLsbD_of_ge x i (by omega), Bool.false_and]

theorem set_of_getLsbD {x : BitVec 32} {spot : ℕ} (hspot : spot < 32) (h : x.getLsbD spot = true) :
    x ||| (1#32 <<< spot) = x := by
  apply BitVec.eq_of_getLsbD_eq
  intro i hi
  rw [getLsbD_set x hspot]
  by_cases hspot' : i = spot
  · subst hspot'
    rw [h, Bool.true_or]
  · simp [hspot']

end Bits

namespace HeapProperties

variable (P : HeapProperties)

def minChunkSize1 : ℕ := 0x10

def dataAlignment : ℕ := 16

/-- The next multiple of the alignment. -/
def applyPadding (bytes : ℕ) : ℕ := (bytes + dataAlignment - 1) / dataAlignment * dataAlignment

def hierarchyThreshold : ℕ := (P.pagesize - 2 * 4) / 33

def minSegmentSize : ℕ := 32 * minChunkSize1 + 4

def maxOnPageMasks : ℕ :=
  min 32 (if P.hierarchyThreshold < minChunkSize1 then 0 else (P.pagesize + (minSegmentSize - 1)) / minSegmentSize)

def segmentsize (chunksize : ℕ) : ℕ := chunksize * 32 + 4

def fullsegments (chunksize : ℕ) : ℕ := min 32 (P.pagesize / segmentsize chunksize)

/-- The number of chunks behind the full segments, computed without sign in 32 bits. -/
def calcAdditionalChunks (fullsegments segmentsize chunksize : ℕ) : ℕ :=
  if fullsegments ≠ 32 then (((P.pagesize : ℤ) - fullsegments * segmentsize - 4) % 2^32).toNat / chunksize else 0

def additionalChunks (chunksize : ℕ) : ℕ :=
  P.calcAdditionalChunks (P.fullsegments chunksize) (segmentsize chunksize) chunksize

def segments (chunksize : ℕ) : ℕ := P.fullsegments chunksize + if 0 < P.additionalChunks chunksize then 1 else 0

def spots (chunksize segment : ℕ) : ℕ := if segment < P.fullsegments chunksize then 32 else P.additionalChunks chunksize

/-- The number of chunks that the bitfield in the page table covers. -/
def chunksinpage (chunksize : ℕ) : ℕ := min (P.pagesize / chunksize) 32

/-- The word of a page where its masks begin. -/
def onPageMasksPosition (nMasks : ℕ) : ℕ := P.pagesize / 4 - nMasks

def capacity (chunksize : ℕ) : ℕ :=
  if chunksize ≤ P.hierarchyThreshold then P.fullsegments chunksize * 32 + P.additionalChunks chunksize
  else P.chunksinpage chunksize

/-- Pages of a power of two bytes. -/
structure Valid : Prop where
  power : ∃ k, 5 ≤ k ∧ k ≤ 26 ∧ P.pagesize = 2^k
  regionsize_pos : 0 < P.regionsize

/-- A size of chunks that the heap uses. -/
def ChunkSize (chunksize : ℕ) : Prop :=
  minChunkSize1 ≤ chunksize ∧ chunksize < P.pagesize ∧ dataAlignment ∣ chunksize

variable {P} {c segment spot : ℕ}

theorem Valid.bounds (h : P.Valid) : 32 ≤ P.pagesize ∧ P.pagesize ≤ 2^26 ∧ dataAlignment ∣ P.pagesize := by
  obtain ⟨k, hk, hk', hpage⟩ := h.power
  rw [hpage]
  exact ⟨Nat.pow_le_pow_right two_pos hk, Nat.pow_le_pow_right two_pos hk',
    pow_dvd_pow 2 (by omega : 4 ≤ k)⟩

theorem ChunkSize.pos (hc : P.ChunkSize c) : 0 < c := lt_of_lt_of_le (by decide) hc.1

/-- A full segment has an odd factor, and never ends with the page. -/
theorem Valid.segment_not_dvd (h : P.Valid) (hc : 0 < c) : ¬ segmentsize c ∣ P.pagesize := by
  obtain ⟨k, -, -, hpage⟩ := h.power
  intro hdvd
  have hodd : 8 * c + 1 ∣ 2^k := (Dvd.intro_left 4 (by rw [segmentsize]; ring)).trans (hpage ▸ hdvd)
  obtain ⟨m, -, hm⟩ := (Nat.dvd_prime_pow Nat.prime_two).mp hodd
  cases m with
  | zero => omega
  | succ m =>
    rw [pow_succ] at hm
    omega

/-- Behind the full segments there is always room for another mask. -/
theorem Valid.rest (h : P.Valid) (hc : 0 < c) (hfew : P.fullsegments c ≠ 32) :
    P.fullsegments c * segmentsize c + 4 ≤ P.pagesize ∧
      P.pagesize < (P.fullsegments c + 1) * segmentsize c := by
  have hfull : P.fullsegments c = P.pagesize / segmentsize c := by
    unfold fullsegments at hfew ⊢
    omega
  have hpos : 0 < segmentsize c := by
    unfold segmentsize
    omega
  have hdiv := Nat.div_add_mod' P.pagesize (segmentsize c)
  have hlt := Nat.mod_lt P.pagesize hpos
  have hne : P.pagesize % segmentsize c ≠ 0 := fun h0 => h.segment_not_dvd hc (Nat.dvd_of_mod_eq_zero h0)
  have hfour : 4 ∣ P.pagesize % segmentsize c :=
    (Nat.dvd_mod_iff (Dvd.intro_left (8 * c + 1) (by rw [segmentsize]; ring))).mpr
      ((by decide : 4 ∣ dataAlignment).trans h.bounds.2.2)
  rw [hfull, add_mul, one_mul]
  omega

theorem Valid.additionalChunks_eq (h : P.Valid) (hc : 0 < c) (hfew : P.fullsegments c ≠ 32) :
    P.additionalChunks c = (P.pagesize - P.fullsegments c * segmentsize c - 4) / c := by
  obtain ⟨hrest, -⟩ := h.rest hc hfew
  have hpage := h.bounds.2.1
  rw [additionalChunks, calcAdditionalChunks, if_pos hfew]
  congr 1
  have hmod : ((P.pagesize : ℤ) - ↑(P.fullsegments c) * ↑(segmentsize c) - 4) % 2^32 =
      ↑(P.pagesize - P.fullsegments c * segmentsize c - 4) := by
    have hcast : (↑(P.pagesize - P.fullsegments c * segmentsize c - 4) : ℤ) =
        (P.pagesize : ℤ) - ↑(P.fullsegments c) * ↑(segmentsize c) - 4 := by
      rw [Nat.sub_sub, Nat.cast_sub hrest]
      push_cast
      ring
    rw [← hcast]
    exact Int.emod_eq_of_lt (by omega) (by omega)
  rw [hmod, Int.toNat_natCast]

theorem additionalChunks_full (hfull : P.fullsegments c = 32) : P.additionalChunks c = 0 := by
  rw [additionalChunks, calcAdditionalChunks, if_neg (not_not.mpr hfull)]

theorem fullsegments_le : P.fullsegments c ≤ 32 := min_le_left _ _

theorem Valid.additionalChunks_lt (h : P.Valid) (hc : 0 < c) : P.additionalChunks c < 32 := by
  by_cases hfew : P.fullsegments c = 32
  · rw [additionalChunks_full hfew]
    norm_num
  · obtain ⟨hrest, hnext⟩ := h.rest hc hfew
    rw [h.additionalChunks_eq hc hfew, Nat.div_lt_iff_lt_mul hc]
    rw [add_mul, one_mul] at hnext
    have hsize : segmentsize c = c * 32 + 4 := rfl
    omega

theorem Valid.spots_le (h : P.Valid) (hc : 0 < c) : P.spots c segment ≤ 32 := by
  have := h.additionalChunks_lt hc
  unfold spots
  split <;> omega

theorem spots_pos (hsegment : segment < P.segments c) : 0 < P.spots c segment := by
  unfold segments at hsegment
  unfold spots
  split_ifs at hsegment ⊢ <;> omega

/-- The chunks and the masks of a page do not overlap. -/
theorem Valid.masks_behind (h : P.Valid) (hc : 0 < c) :
    (P.fullsegments c * 32 + P.additionalChunks c) * c + 4 * P.segments c ≤ P.pagesize := by
  have hsize : P.fullsegments c * segmentsize c = P.fullsegments c * 32 * c + 4 * P.fullsegments c := by
    rw [segmentsize]
    ring
  by_cases hfew : P.fullsegments c = 32
  · have hle : P.fullsegments c * segmentsize c ≤ P.pagesize :=
      (Nat.mul_le_mul_right _ (min_le_right _ _)).trans (Nat.div_mul_le_self _ _)
    rw [segments, additionalChunks_full hfew, if_neg (lt_irrefl 0), add_zero, add_zero, ← hsize]
    exact hle
  · obtain ⟨hrest, -⟩ := h.rest hc hfew
    have hmul : P.additionalChunks c * c ≤ P.pagesize - P.fullsegments c * segmentsize c - 4 := by
      rw [h.additionalChunks_eq hc hfew]
      exact Nat.div_mul_le_self _ _
    have hsegments : P.segments c ≤ P.fullsegments c + 1 := by
      unfold segments
      split <;> omega
    rw [add_mul]
    omega

theorem Valid.capacity_mul_le (h : P.Valid) (hc : 0 < c) : P.capacity c * c ≤ P.pagesize := by
  unfold capacity
  split
  · have := h.masks_behind hc
    omega
  · exact (Nat.mul_le_mul_right _ (min_le_left _ _)).trans (Nat.div_mul_le_self _ _)

theorem Valid.capacity_le (h : P.Valid) (hc : 0 < c) : P.capacity c ≤ 1024 := by
  have hlt := h.additionalChunks_lt hc
  have hle : P.fullsegments c ≤ 32 := fullsegments_le
  unfold capacity chunksinpage
  split
  · by_cases hfull : P.fullsegments c = 32
    · rw [additionalChunks_full hfull]
      omega
    · omega
  · omega

theorem lt_capacity (hsmall : c ≤ P.hierarchyThreshold) (hspot : spot < P.spots c segment)
    (hsegment : segment < P.segments c) : 32 * segment + spot < P.capacity c := by
  rw [capacity, if_pos hsmall]
  unfold segments at hsegment
  unfold spots at hspot
  split_ifs at hsegment hspot <;> omega

end HeapProperties

end PIConGPU.Scatter
