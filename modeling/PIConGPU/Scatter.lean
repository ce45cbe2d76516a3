import PIConGPU.ScatterLayout
import PIConGPU.KernelLaunch

/-!
# The device heap

Any number of threads allocate and free chunks at the same time. They search the page table for a page with chunks of
a suitable size, enter the page through its counter, and take a chunk by setting its bit. Who frees the last chunk of a
page tries to lock the page and to make it a page without chunk size. Every access to the heap is one step, and
addresses are relative to the first page. What `_regions` and `_firstfreeblock` hold is left open, as is the page
where a search begins: they only decide about the order of the search.
-/
namespace PIConGPU.Scatter

structure PTE where
  chunksize : ℕ
  count : ℕ
  bitmask : BitVec 32

/-- Memory that was handed out, and the number of bytes asked for. -/
structure Allocation where
  mem : ℕ
  bytes : ℕ
  deriving DecidableEq

/-- No byte belongs to both. -/
def Allocation.Apart (a b : Allocation) : Prop := a.mem + a.bytes ≤ b.mem ∨ b.mem + b.bytes ≤ a.mem

/-- The page table, the words of the pages, and the memory in use. -/
structure Heap where
  ptes : ℕ → PTE
  data : ℕ → ℕ → BitVec 32
  live : List Allocation

namespace Heap

variable (h : Heap)

def chunksize (page : ℕ) : ℕ := (h.ptes page).chunksize

def count (page : ℕ) : ℕ := (h.ptes page).count

def bitmask (page : ℕ) : BitVec 32 := (h.ptes page).bitmask

def setChunksize (page c : ℕ) : Heap :=
  { h with ptes := Function.update h.ptes page { h.ptes page with chunksize := c } }

def setCount (page n : ℕ) : Heap := { h with ptes := Function.update h.ptes page { h.ptes page with count := n } }

def setBitmask (page : ℕ) (mask : BitVec 32) : Heap :=
  { h with ptes := Function.update h.ptes page { h.ptes page with bitmask := mask } }

def setWord (page word : ℕ) (value : BitVec 32) : Heap :=
  { h with data := Function.update h.data page (Function.update (h.data page) word value) }

def handOut (a : Allocation) : Heap := { h with live := a :: h.live }

def takeBack (a : Allocation) : Heap := { h with live := h.live.erase a }

/-- The counters are unsigned numbers of 32 bits. -/
def atomicAdd (page n : ℕ) : Heap := h.setCount page ((h.count page + n) % 2^32)

def atomicSub (page n : ℕ) : Heap := h.setCount page ((h.count page + (2^32 - n)) % 2^32)

def init : Heap := ⟨fun _ => ⟨0, 0, 0⟩, fun _ _ => 0, []⟩

section Update

variable (page q c n word w : ℕ) (mask value : BitVec 32) (a : Allocation)

@[simp] theorem chunksize_setChunksize :
    (h.setChunksize page c).chunksize q = if q = page then c else h.chunksize q := by
  by_cases hq : q = page <;> simp [setChunksize, chunksize, hq]

@[simp] theorem chunksize_setCount : (h.setCount page n).chunksize q = h.chunksize q := by
  by_cases hq : q = page <;> simp [setCount, chunksize, hq]

@[simp] theorem chunksize_setBitmask : (h.setBitmask page mask).chunksize q = h.chunksize q := by
  by_cases hq : q = page <;> simp [setBitmask, chunksize, hq]

@[simp] theorem chunksize_setWord : (h.setWord page word value).chunksize q = h.chunksize q := rfl

@[simp] theorem chunksize_handOut : (h.handOut a).chunksize q = h.chunksize q := rfl

@[simp] theorem count_setChunksize : (h.setChunksize page c).count q = h.count q := by
  by_cases hq : q = page <;> simp [setChunksize, count, hq]

@[simp] theorem count_setCount : (h.setCount page n).count q = if q = page then n else h.count q := by
  by_cases hq : q = page <;> simp [setCount, count, hq]

@[simp] theorem count_setBitmask : (h.setBitmask page mask).count q = h.count q := by
  by_cases hq : q = page <;> simp [setBitmask, count, hq]

@[simp] theorem count_setWord : (h.setWord page word value).count q = h.count q := rfl

@[simp] theorem count_handOut : (h.handOut a).count q = h.count q := rfl

@[simp] theorem bitmask_setChunksize : (h.setChunksize page c).bitmask q = h.bitmask q := by
  by_cases hq : q = page <;> simp [setChunksize, bitmask, hq]

@[simp] theorem bitmask_setCount : (h.setCount page n).bitmask q = h.bitmask q := by
  by_cases hq : q = page <;> simp [setCount, bitmask, hq]

@[simp] theorem bitmask_setBitmask : (h.setBitmask page mask).bitmask q = if q = page then mask else h.bitmask q := by
  by_cases hq : q = page <;> simp [setBitmask, bitmask, hq]

@[simp] theorem bitmask_setWord : (h.setWord page word value).bitmask q = h.bitmask q := rfl

@[simp] theorem bitmask_handOut : (h.handOut a).bitmask q = h.bitmask q := rfl

@[simp] theorem data_setWord :
    (h.setWord page word value).data q w = if q = page ∧ w = word then value else h.data q w := by
  by_cases hq : q = page <;> by_cases hw : w = word <;> simp [setWord, hq, hw]

@[simp] theorem data_handOut : (h.handOut a).data q = h.data q := rfl

end Update

end Heap

structure Search where
  bytes : ℕ
  finder : ℕ
  b : ℕ
  ptetry : ℕ
  region : ℕ

def Search.next (k : Search) : Search := { k with ptetry := k.ptetry + 1 }

/-- Where `addChunkHierarchy` and `addChunkNoHierarchy` are. -/
inductive Claim
  | readBitmask
  | segment (mask : BitVec 32) (tries i segment spot : ℕ)
  | full (mask : BitVec 32) (tries i segment : ℕ)
  | page (spot : ℕ)

/-- Where `deallocChunked` is. -/
inductive Unmark
  | mask
  | hint
  | bit
  | count
  deriving DecidableEq

/-- Where the thread is that has locked a page. -/
inductive Cleaning
  | word (w : ℕ)
  | chunksize
  | unlock

/-- Where a thread is; `elsewhere` stands for an address of `destroy` that is no chunk. -/
inductive Phase
  | idle
  | search (k : Search)
  | scan (k : Search)
  | openPage (k : Search)
  | tryUsePage (k : Search) (c : ℕ)
  | recheck (k : Search) (c filllevel : ℕ)
  | claim (k : Search) (c : ℕ) (step : Claim)
  | giveUp (k : Search)
  | destroy (mem : ℕ)
  | elsewhere (mem : ℕ)
  | free (mem c : ℕ) (step : Unmark)
  | emptied (page : ℕ)
  | clean (page : ℕ) (step : Cleaning)

namespace HeapProperties

variable (P : HeapProperties) (memsize lane : ℕ)

/-- The page table and a word for every region lie behind the pages. -/
def numregions : ℕ :=
  let n := memsize / (P.regionsize * (12 + P.pagesize) + 4)
  if memsize < n * P.regionsize * P.pagesize + n * P.regionsize * 12 + n * 4 then n - 1 else n

def numpages : ℕ := P.numregions memsize * P.regionsize

def pagesperblock : ℕ := P.numpages memsize / P.accessblocks

/-- Chunks of this size do for a request. -/
def Suits (bytes c : ℕ) : Prop := bytes ≤ c ∧ c ≤ min P.pagesize (P.wastefactor * bytes)

instance (bytes c : ℕ) : Decidable (P.Suits bytes c) := inferInstanceAs (Decidable (_ ∧ _))

def enterSegment (k : Search) (c : ℕ) (mask : BitVec 32) (tries i segment : ℕ) : Phase :=
  if i < tries then .claim k c (.segment mask tries i segment (lane % P.spots c segment)) else .giveUp k

/-- The first segment of `addChunkHierarchy`; the number of tries is unsigned. -/
def addChunkHierarchy (k : Search) (c : ℕ) (mask : BitVec 32) : Phase :=
  let spot := lane % P.segments c
  P.enterSegment lane k c mask ((P.segments c + (2^32 - popc mask)) % 2^32) 0
    (if mask.getLsbD spot then nextspot mask spot (P.segments c) else spot)

/-- What `tryUsePage` does with a page that still has the right chunks. -/
def usePage (k : Search) (c filllevel : ℕ) : Phase :=
  if c ≤ P.hierarchyThreshold then
    if filllevel < P.fullsegments c * 32 + P.additionalChunks c then .claim k c .readBitmask else .giveUp k
  else if filllevel < P.chunksinpage c then .claim k c (.page (lane % P.chunksinpage c)) else .giveUp k

/-- The word and the bit of a chunk's mask on its page. -/
def maskWord (c segment : ℕ) : ℕ := P.onPageMasksPosition (P.segments c) + segment

/-- The address of a chunk. -/
def address (page c chunk : ℕ) : ℕ := page * P.pagesize + chunk * c

/-- A word of a page holds bytes of the allocation. -/
def Covers (a : Allocation) (page word : ℕ) : Prop :=
  a.mem / P.pagesize = page ∧ 4 * word < a.mem % P.pagesize + a.bytes ∧ a.mem % P.pagesize < 4 * (word + 1)

inductive Step : Heap → Phase → Heap → Phase → Prop
  | create {h bytes startblock startpage} (hpos : 0 < bytes) (hbytes : applyPadding bytes < P.pagesize)
      (hstart : startpage < P.pagesperblock memsize) : Step h .idle h
      (.search ⟨applyPadding bytes, 0, startblock, startpage + startblock * P.pagesperblock memsize, 0⟩)
  | visit {h k} (hb : k.b < P.accessblocks) (hblock : k.ptetry < (k.b + 1) * P.pagesperblock memsize) :
      Step h (.search k) h (.scan { k with region := k.ptetry / P.regionsize })
  | skip {h k} (hb : k.b < P.accessblocks) (hblock : k.ptetry < (k.b + 1) * P.pagesperblock memsize) :
      Step h (.search k) h (.search { k with ptetry := k.ptetry + P.regionsize })
  | nextBlock {h k} (hb : k.b < P.accessblocks) (hblock : ¬ k.ptetry < (k.b + 1) * P.pagesperblock memsize) :
      Step h (.search k) h (.search { k with b := k.b + 1 })
  | again {h k} (hb : ¬ k.b < P.accessblocks) (hfinder : k.finder = 0) :
      Step h (.search k) h (.search { k with finder := 1, b := 0, ptetry := 0 })
  | outOfMemory {h k} (hb : ¬ k.b < P.accessblocks) (hfinder : k.finder ≠ 0) : Step h (.search k) h .idle
  | endRegion {h k} (hregion : ¬ k.ptetry < (k.region + 1) * P.regionsize) : Step h (.scan k) h (.search k)
  | readPage {h k} (hregion : k.ptetry < (k.region + 1) * P.regionsize) : Step h (.scan k) h
      (if P.Suits k.bytes (h.chunksize k.ptetry) then .tryUsePage k (h.chunksize k.ptetry)
      else if h.chunksize k.ptetry = 0 then .openPage k else .scan k.next)
  | openPage {h k} (hfree : h.chunksize k.ptetry = 0) : Step h (.openPage k)
      (h.setChunksize k.ptetry (max k.bytes minChunkSize1)) (.tryUsePage k (max k.bytes minChunkSize1))
  | opened {h k} (hused : h.chunksize k.ptetry ≠ 0) : Step h (.openPage k) h
      (if P.Suits k.bytes (h.chunksize k.ptetry) then .tryUsePage k (h.chunksize k.ptetry) else .scan k.next)
  | increase {h k c} : Step h (.tryUsePage k c) (h.atomicAdd k.ptetry 1) (.recheck k c (h.count k.ptetry))
  | recheck {h k c filllevel} : Step h (.recheck k c filllevel) h
      (if h.chunksize k.ptetry = c then P.usePage lane k c filllevel else .giveUp k)
  | readBitmask {h k c} : Step h (.claim k c .readBitmask) h (P.addChunkHierarchy lane k c (h.bitmask k.ptetry))
  | useSegment {h k c mask tries i segment spot}
      (hfree : (h.data k.ptetry (P.maskWord c segment)).getLsbD spot = false) :
      Step h (.claim k c (.segment mask tries i segment spot))
        ((h.setWord k.ptetry (P.maskWord c segment)
          (h.data k.ptetry (P.maskWord c segment) ||| (1#32 <<< spot))).handOut
            ⟨P.address k.ptetry c (32 * segment + spot), k.bytes⟩) .idle
  | segmentTaken {h k c mask tries i segment spot}
      (htaken : (h.data k.ptetry (P.maskWord c segment)).getLsbD spot = true) :
      Step h (.claim k c (.segment mask tries i segment spot))
        (h.setWord k.ptetry (P.maskWord c segment) (h.data k.ptetry (P.maskWord c segment) ||| (1#32 <<< spot)))
        (if P.spots c segment ≤ popc (h.data k.ptetry (P.maskWord c segment)) then
          .claim k c (.full mask tries i segment)
        else .claim k c (.segment mask tries i segment
          (nextspot (h.data k.ptetry (P.maskWord c segment)) spot (P.spots c segment))))
  | markFull {h k c mask tries i segment} : Step h (.claim k c (.full mask tries i segment))
      (h.setBitmask k.ptetry (h.bitmask k.ptetry ||| (1#32 <<< segment)))
      (P.enterSegment lane k c mask tries (i + 1) (nextspot mask segment (P.segments c)))
  | useSpot {h k c spot} (hfree : (h.bitmask k.ptetry).getLsbD spot = false) :
      Step h (.claim k c (.page spot))
        ((h.setBitmask k.ptetry (h.bitmask k.ptetry ||| (1#32 <<< spot))).handOut
          ⟨P.address k.ptetry c spot, k.bytes⟩) .idle
  | spotTaken {h k c spot} (htaken : (h.bitmask k.ptetry).getLsbD spot = true) :
      Step h (.claim k c (.page spot)) (h.setBitmask k.ptetry (h.bitmask k.ptetry ||| (1#32 <<< spot)))
        (if P.chunksinpage c ≤ popc (h.bitmask k.ptetry) then .giveUp k
        else .claim k c (.page (nextspot (h.bitmask k.ptetry) spot (P.chunksinpage c))))
  | giveUp {h k} : Step h (.giveUp k) (h.atomicSub k.ptetry 1) (.scan k.next)
  | destroy {h a} (ha : a ∈ h.live) : Step h .idle (h.takeBack a) (.destroy a.mem)
  | readChunksize {h mem} : Step h (.destroy mem) h
      (if mem % P.pagesize % h.chunksize (mem / P.pagesize) = 0 ∧ h.chunksize (mem / P.pagesize) < P.pagesize then
        .free mem (h.chunksize (mem / P.pagesize))
          (if h.chunksize (mem / P.pagesize) ≤ P.hierarchyThreshold then .mask else .bit)
      else .elsewhere mem)
  | clearMask {h mem c segment} (hsegment : segment = mem % P.pagesize / (c * 32)) : Step h (.free mem c .mask)
      (h.setWord (mem / P.pagesize) (P.maskWord c segment) (h.data (mem / P.pagesize) (P.maskWord c segment) &&&
        ~~~(1#32 <<< ((mem % P.pagesize - segment * (c * 32)) / c)))) (.free mem c .hint)
  | clearHint {h mem c} : Step h (.free mem c .hint) (h.setBitmask (mem / P.pagesize)
      (h.bitmask (mem / P.pagesize) &&& ~~~(1#32 <<< (mem % P.pagesize / (c * 32))))) (.free mem c .count)
  | clearBit {h mem c} : Step h (.free mem c .bit) (h.setBitmask (mem / P.pagesize)
      (h.bitmask (mem / P.pagesize) &&& ~~~(1#32 <<< (mem % P.pagesize / c)))) (.free mem c .count)
  | decrease {h mem c} : Step h (.free mem c .count) (h.atomicSub (mem / P.pagesize) 1)
      (if h.count (mem / P.pagesize) = 1 then .emptied (mem / P.pagesize) else .idle)
  | lock {h page} (hfree : h.count page = 0) : Step h (.emptied page) (h.setCount page P.pagesize)
      (.clean page (.word (P.onPageMasksPosition P.maxOnPageMasks)))
  | notLocked {h page} (hused : h.count page ≠ 0) : Step h (.emptied page) h .idle
  | clearWord {h page w} (hw : w < P.pagesize / 4) :
      Step h (.clean page (.word w)) (h.setWord page w 0) (.clean page (.word (w + 1)))
  | cleared {h page w} (hw : ¬ w < P.pagesize / 4) : Step h (.clean page (.word w)) h (.clean page .chunksize)
  | reset {h page} : Step h (.clean page .chunksize) (h.setChunksize page 0) (.clean page .unlock)
  | unlock {h page} : Step h (.clean page .unlock) (h.atomicSub page P.pagesize) .idle
  | write {h a page word value} (ha : a ∈ h.live) (hcovers : P.Covers a page word) :
      Step h .idle (h.setWord page word value) .idle

def Run {τ : Type*} [DecidableEq τ] (lane : τ → ℕ) : Heap × (τ → Phase) → Heap × (τ → Phase) → Prop :=
  KernelLaunch.Run fun t => P.Step memsize (lane t)

end HeapProperties

end PIConGPU.Scatter
