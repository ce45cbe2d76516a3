import PIConGPU.IntervalTiling
import PIConGPU.Mask
import PIConGPU.ParserGridDistribution

/-!
# The domain decomposition of a command line

Every rank computes the size and the offset of its local domain from the command line and its
own position, and checks its own sizes only.
-/
namespace PIConGPU

open IntervalTiling ParserGridDistribution

/-- Compile-time constants of a simulation in `D` dimensions. -/
structure SimulationConstants (D : ℕ) where
  superCellSize : Fin D → ℕ
  guardSize : ℕ
  absorberCells : Fin D → Fin 2 → ℕ
  superCellSize_pos : ∀ d, 0 < superCellSize d
  guardSize_pos : 0 < guardSize

structure CommandLine where
  devices : List UInt32
  gridSize : List UInt32
  gridDistribution : List (List Char)
  periodic : List UInt32

structure LocalDomain (D : ℕ) where
  gridSizeLocal : DataSpace D
  gridOffset : DataSpace D

namespace CommandLine

variable {D : ℕ} (cl : CommandLine)

def gpus (d : Fin D) : ℤ := i32 (cl.devices.getD d 1).toNat

/-- A missing third extent is 1; with fewer than two extents the source reads past the end. -/
def globalGridSize (d : Fin D) : ℤ := i32 (cl.gridSize.getD d 1).toNat

def isPeriodic (d : Fin D) : Bool := cl.periodic.getD d 0 != 0

/-- `CommunicatorMPI::init`: one process for each device, and `MPI_Cart_create` needs positive
extents. -/
def initDevices (D mpiSize : ℕ) : Prop :=
  (∀ d : Fin D, 0 < cl.gpus d) ∧ ∏ d : Fin D, cl.gpus d = mpiSize

/-- Size and offset in one dimension; without a text the cells are distributed equally. -/
def localExtent (d : Fin D) (gpuPos : ℤ) : Option (ℤ × ℤ) :=
  match cl.gridDistribution[(d : ℕ)]? with
  | some text => do
    let parsedInput ← parseString text
    let size ← getLocalSize parsedInput gpuPos
    let offset ← getOffset parsedInput gpuPos (u32 (cl.globalGridSize d))
    return (i32 size, i32 offset)
  | none =>
    let size := (cl.globalGridSize d).tdiv (cl.gpus d)
    some (size, size * gpuPos)

end CommandLine

variable {D : ℕ} (c : SimulationConstants D)

namespace SimulationConstants

/-- `gridSuperCells` of the mapping description, one guarding supercell on each side. -/
def gridSuperCells (gridSizeLocal : DataSpace D) (d : Fin D) : ℤ :=
  (gridSizeLocal d + c.superCellSize d + c.superCellSize d).tdiv (c.superCellSize d)

/-- Assertions in the constructor of `MappingDescription`. -/
def MappingAsserts (gridSizeLocal : DataSpace D) : Prop :=
  ∀ d, (c.guardSize = 0 ∨ 3 ≤ c.gridSuperCells gridSizeLocal d) ∧
    (c.guardSize : ℤ) ≤ c.gridSuperCells gridSizeLocal d - 2 * c.guardSize

def checkGridConfiguration (cl : CommandLine) (gridSizeLocal : DataSpace D) : Prop :=
  ∀ d, (cl.globalGridSize d).tmod (c.superCellSize d) = 0 ∧
    (gridSizeLocal d).tmod (c.superCellSize d) = 0 ∧
    3 * c.guardSize ≤ u32 (gridSizeLocal d) / c.superCellSize d

/-- The absorber of a non-periodic direction has to fit into the local domain. -/
def AbsorberAsserts (cl : CommandLine) (gridSizeLocal : DataSpace D) : Prop :=
  ∀ d, cl.isPeriodic d = false → ∀ side, (c.absorberCells d side : ℤ) ≤
    c.superCellSize d * (c.gridSuperCells gridSizeLocal d - 2 * c.guardSize)

instance (gridSizeLocal : DataSpace D) : Decidable (c.MappingAsserts gridSizeLocal) :=
  inferInstanceAs (Decidable (∀ _, _))

instance (cl : CommandLine) (gridSizeLocal : DataSpace D) :
    Decidable (c.checkGridConfiguration cl gridSizeLocal) :=
  inferInstanceAs (Decidable (∀ _, _))

instance (cl : CommandLine) (gridSizeLocal : DataSpace D) :
    Decidable (c.AbsorberAsserts cl gridSizeLocal) :=
  inferInstanceAs (Decidable (∀ _, _))

end SimulationConstants

/-- Extents of all dimensions, before any check of the sizes. -/
def CommandLine.localDomain (cl : CommandLine) (myGPUpos : DataSpace D) : Option (LocalDomain D) :=
  if h : ∀ d, (cl.localExtent d (myGPUpos d)).isSome then
    some ⟨fun d => ((cl.localExtent d (myGPUpos d)).get (h d)).1,
      fun d => ((cl.localExtent d (myGPUpos d)).get (h d)).2⟩
  else none

/-- The local domain of the rank at `myGPUpos`; `none` stands for a failed assertion, an
exception or undefined behaviour. -/
def pluginLoad (cl : CommandLine) (myGPUpos : DataSpace D) : Option (LocalDomain D) :=
  if cl.gridSize.length < 2 then none
  else (cl.localDomain myGPUpos).bind fun dom =>
    if c.MappingAsserts dom.gridSizeLocal ∧ c.checkGridConfiguration cl dom.gridSizeLocal ∧
      c.AbsorberAsserts cl dom.gridSizeLocal then some dom else none

namespace CommandLine

def InGrid (cl : CommandLine) (pos : DataSpace D) : Prop := ∀ d, 0 ≤ pos d ∧ pos d < cl.gpus d

structure Accepted (cl : CommandLine) (mpiSize : ℕ) (domain : DataSpace D → LocalDomain D) : Prop where
  initDevices : cl.initDevices D mpiSize
  pluginLoad : ∀ pos, cl.InGrid pos → PIConGPU.pluginLoad c cl pos = some (domain pos)

/-- The local domains along every line of devices tile the global interval. -/
def DomainsTile (cl : CommandLine) (domain : DataSpace D → LocalDomain D) : Prop :=
  ∀ (d : Fin D) (pos : DataSpace D), cl.InGrid pos →
    Tiles (fun p : Fin (cl.gpus d).toNat => (domain (Function.update pos d (p : ℕ))).gridOffset d)
      (fun p => (domain (Function.update pos d (p : ℕ))).gridSizeLocal d) 0 (cl.globalGridSize d)

/-- Equal shares leave no rest, and the entries of the devices that exist hold all cells. If the index wraps on the way
to these entries, the shares that it leads to have to meet. -/
structure Balanced (D : ℕ) (cl : CommandLine) : Prop where
  equal : ∀ d : Fin D, cl.gridDistribution[(d : ℕ)]? = none → cl.gpus d ∣ cl.globalGridSize d
  distributed : ∀ (d : Fin D) text parsedInput, cl.gridDistribution[(d : ℕ)]? = some text →
    parseString text = some parsedInput → walked (cl.gpus d).toNat parsedInput ≤ 2147483648 →
    (((expand parsedInput).take (cl.gpus d).toNat).sum : ℤ) = cl.globalGridSize d
  wrapped : ∀ (d : Fin D) text parsedInput, cl.gridDistribution[(d : ℕ)]? = some text →
    parseString text = some parsedInput → 2147483648 < walked (cl.gpus d).toNat parsedInput →
    SharesMeet parsedInput (cl.gpus d).toNat (cl.globalGridSize d)

end CommandLine

variable {c} {cl : CommandLine}

theorem localDomain_spec {pos : DataSpace D} {dom : LocalDomain D} (h : cl.localDomain pos = some dom)
    (d : Fin D) : cl.localExtent d (pos d) = some (dom.gridSizeLocal d, dom.gridOffset d) := by
  unfold CommandLine.localDomain at h
  split_ifs at h with hext
  obtain rfl := Option.some.inj h
  simp

theorem pos_of_tdiv_pos {a b : ℤ} (hb : 0 < b) (h : 0 < a.tdiv b) : 0 < a := by
  by_contra ha
  have hneg : 0 ≤ (-a).tdiv b := Int.tdiv_nonneg (by omega) hb.le
  rw [Int.neg_tdiv] at hneg
  omega

theorem gridSizeLocal_pos {gridSizeLocal : DataSpace D} (h : c.MappingAsserts gridSizeLocal)
    (d : Fin D) : 0 < gridSizeLocal d := by
  have hguard := c.guardSize_pos
  have hpos := c.superCellSize_pos d
  have hmap := (h d).1.resolve_left (by omega)
  unfold SimulationConstants.gridSuperCells at hmap
  have hnonneg := pos_of_tdiv_pos (by omega) (show 0 < _ from lt_of_lt_of_le (by decide) hmap)
  rw [Int.tdiv_eq_ediv_of_nonneg hnonneg.le, Int.le_ediv_iff_mul_le (by omega)] at hmap
  omega

theorem pluginLoad_spec {pos : DataSpace D} {dom : LocalDomain D}
    (h : pluginLoad c cl pos = some dom) (d : Fin D) :
    cl.localExtent d (pos d) = some (dom.gridSizeLocal d, dom.gridOffset d) ∧
      0 < dom.gridSizeLocal d := by
  unfold pluginLoad at h
  split_ifs at h with hsize
  obtain ⟨dom', hdom, h⟩ := Option.bind_eq_some_iff.mp h
  split_ifs at h with hchk
  obtain rfl := Option.some.inj h
  exact ⟨localDomain_spec hdom d, gridSizeLocal_pos hchk.1 d⟩

namespace CommandLine

theorem globalGridSize_lt (cl : CommandLine) (d : Fin D) : cl.globalGridSize d < 2147483648 :=
  i32_lt _

theorem inGrid_update {pos : DataSpace D} (hpos : cl.InGrid pos) (d : Fin D)
    (p : Fin (cl.gpus d).toNat) : cl.InGrid (Function.update pos d (p : ℕ)) := by
  intro e
  by_cases he : e = d
  · subst he
    have := p.isLt
    rw [Function.update_self]
    omega
  · rw [Function.update_of_ne he]
    exact hpos e

/-- Equal shares tile exactly when they leave no rest. -/
theorem tiles_equal {gpus globalSize : ℤ} (hg : 0 < gpus) (hs : 0 < globalSize.tdiv gpus) :
    Tiles (fun p : Fin gpus.toNat => globalSize.tdiv gpus * ((p : ℕ) : ℤ))
      (fun _ => globalSize.tdiv gpus) 0 globalSize ↔ gpus ∣ globalSize := by
  set size := globalSize.tdiv gpus with hsize
  have hglobal : 0 < globalSize := pos_of_tdiv_pos hg hs
  constructor
  · intro h
    have hsum := h.sum_size (fun _ => hs.le) hglobal.le
    rw [Finset.sum_const, Finset.card_univ, Fintype.card_fin, nsmul_eq_mul,
      Int.toNat_of_nonneg hg.le] at hsum
    exact ⟨size, by linarith⟩
  · intro h
    have hmul : globalSize = size * gpus := by
      rw [hsize, Int.tdiv_mul_cancel h]
    have hb : Monotone fun k : ℕ => size * (k : ℤ) := by
      intro a b hab
      exact mul_le_mul_of_nonneg_left (by exact_mod_cast hab) hs.le
    have : Tiles (fun p : Fin gpus.toNat => size * ((p : ℕ) : ℤ)) (fun _ => size) (size * ((0 : ℕ) : ℤ))
        (size * (gpus.toNat : ℤ)) :=
      tiles_of_boundaries hb (fun _ => rfl) (fun p => by push_cast; ring)
    rw [hmul]
    simpa [Int.toNat_of_nonneg hg.le] using this

theorem sum_take_mono (entries : List ℕ) : Monotone fun k => ((entries.take k).sum : ℤ) := by
  intro a b hab
  have : (entries.take a).sum ≤ (entries.take b).sum :=
    List.Sublist.sum_le_sum (List.take_sublist_take_left hab) fun _ _ => Nat.zero_le _
  exact Int.ofNat_le.mpr this

/-- Entries for the existing devices tile exactly when they hold all cells. -/
theorem tiles_distributed {entries : List ℕ} {n : ℕ} (hn : 0 < n) {globalSize : ℤ}
    (hlt : globalSize < 2147483648) {offset size : Fin n → ℤ} (hpos : ∀ p, 0 < size p)
    (hsize : ∀ p : Fin n, entries[(p : ℕ)]? = some (size p).toNat)
    (hoffset : ∀ p : Fin n, offset p = i32 ((entries.take p).sum : ℕ)) :
    Tiles offset size 0 globalSize ↔ ((entries.take n).sum : ℤ) = globalSize := by
  have hsucc : ∀ p : Fin n, (((entries.take (p + 1)).sum : ℕ) : ℤ) = (entries.take p).sum + size p := by
    intro p
    rw [List.take_add_one, hsize p]
    simp [(hpos p).le]
  have hsum : ∀ k ≤ n, ((entries.take k).sum : ℤ) =
      ∑ p : Fin k, if h : (p : ℕ) < n then size ⟨p, h⟩ else 0 := by
    intro k hk
    induction k with
    | zero => simp
    | succ k ih =>
      rw [Fin.sum_univ_castSucc, hsucc ⟨k, by omega⟩, ih (by omega)]
      simp [show k < n by omega]
  have htotal : ((entries.take n).sum : ℤ) = ∑ p, size p := by
    rw [hsum n le_rfl]
    simp
  constructor
  · intro h
    rw [htotal, h.sum_size (fun p => (hpos p).le) (h.lt (hpos ⟨0, hn⟩)).le, sub_zero]
  · intro h
    have hoff : ∀ p : Fin n, offset p = ((entries.take p).sum : ℕ) := by
      intro p
      have hle : (((entries.take p).sum : ℕ) : ℤ) ≤ (entries.take n).sum :=
        sum_take_mono entries p.isLt.le
      rw [hoffset p, i32_eq (by omega) (by omega)]
    rw [← h]
    have hs : ∀ p : Fin n, size p = ((entries.take (p + 1)).sum : ℤ) - ((entries.take p).sum : ℤ) := fun p => by
      simp only [hsucc p]
      ring
    have htiles := tiles_of_boundaries (sum_take_mono entries) hoff hs
    simpa using htiles

theorem domain_extent {mpiSize : ℕ} {domain : DataSpace D → LocalDomain D}
    (hacc : cl.Accepted c mpiSize domain) {pos : DataSpace D} (hpos : cl.InGrid pos) (d : Fin D)
    (p : Fin (cl.gpus d).toNat) :
    cl.localExtent d ((p : ℕ) : ℤ) = some ((domain (Function.update pos d (p : ℕ))).gridSizeLocal d,
      (domain (Function.update pos d (p : ℕ))).gridOffset d) ∧
      0 < (domain (Function.update pos d (p : ℕ))).gridSizeLocal d := by
  have h := pluginLoad_spec (hacc.pluginLoad _ (inGrid_update hpos d p)) d
  rwa [Function.update_self] at h

theorem equal_tiles_iff {mpiSize : ℕ} {domain : DataSpace D → LocalDomain D}
    (hacc : cl.Accepted c mpiSize domain) {pos : DataSpace D} (hpos : cl.InGrid pos) {d : Fin D}
    (hnone : cl.gridDistribution[(d : ℕ)]? = none) :
    Tiles (fun p : Fin (cl.gpus d).toNat => (domain (Function.update pos d (p : ℕ))).gridOffset d)
      (fun p => (domain (Function.update pos d (p : ℕ))).gridSizeLocal d) 0 (cl.globalGridSize d) ↔
    cl.gpus d ∣ cl.globalGridSize d := by
  have hg := hacc.initDevices.1 d
  have hext := domain_extent hacc hpos d
  simp only [localExtent, hnone, Option.some.injEq, Prod.mk.injEq] at hext
  have hs : 0 < (cl.globalGridSize d).tdiv (cl.gpus d) := by
    rw [(hext ⟨0, by omega⟩).1.1]
    exact (hext ⟨0, by omega⟩).2
  rw [← tiles_equal hg hs]
  simp only [← (hext _).1.1, ← (hext _).1.2]

section Distributed

variable {mpiSize : ℕ} {domain : DataSpace D → LocalDomain D} (hacc : cl.Accepted c mpiSize domain)
  {pos : DataSpace D} (hpos : cl.InGrid pos) {d : Fin D} {text : List Char} {es : List (ℕ × ℕ)}
  (htext : cl.gridDistribution[(d : ℕ)]? = some text) (hes : parseString text = some es)
include hacc hpos htext hes

theorem domain_distributed (p : Fin (cl.gpus d).toNat) : ∃ size offset,
    getLocalSize es (p : ℕ) = some size ∧ getOffset es (p : ℕ) (u32 (cl.globalGridSize d)) = some offset ∧
    (domain (Function.update pos d (p : ℕ))).gridSizeLocal d = i32 size ∧
    (domain (Function.update pos d (p : ℕ))).gridOffset d = i32 offset := by
  have hext := (domain_extent hacc hpos d p).1
  simp only [localExtent, htext, hes, Option.bind_eq_bind, Option.bind_some] at hext
  obtain ⟨size, hsize, hext⟩ := Option.bind_eq_some_iff.mp hext
  obtain ⟨offset, hoffset, hext⟩ := Option.bind_eq_some_iff.mp hext
  simp only [Option.pure_def, Option.some.injEq, Prod.mk.injEq] at hext
  exact ⟨size, offset, hsize, hoffset, hext.1.symm, hext.2.symm⟩

theorem distributed_tiles_iff (hfit : walked (cl.gpus d).toNat es ≤ 2147483648) :
    Tiles (fun p : Fin (cl.gpus d).toNat => (domain (Function.update pos d (p : ℕ))).gridOffset d)
      (fun p => (domain (Function.update pos d (p : ℕ))).gridSizeLocal d) 0 (cl.globalGridSize d) ↔
    (((expand es).take (cl.gpus d).toNat).sum : ℤ) = cl.globalGridSize d := by
  have hg := hacc.initDevices.1 d
  -- the walk of every device ends at its own entry of the expanded list
  have hwalk : ∀ p : Fin (cl.gpus d).toNat, ∃ size offset,
      (expand es)[(p : ℕ)]? = some size ∧ size < 4294967296 ∧
      i32 offset = i32 (((expand es).take p).sum : ℕ) ∧
      (domain (Function.update pos d (p : ℕ))).gridSizeLocal d = i32 size ∧
      (domain (Function.update pos d (p : ℕ))).gridOffset d = i32 offset := by
    intro p
    obtain ⟨size, offset, hsize, hoffset, hs, ho⟩ := domain_distributed hacc hpos htext hes p
    have hfit' : walked ((p : ℕ) + 1) es ≤ 2147483648 := (walked_mono es (Nat.succ_le_of_lt p.isLt)).trans hfit
    rw [getLocalSize_eq hfit'] at hsize
    have hp : (p : ℕ) < deviceCount es := by
      rw [← length_expand]
      exact (List.getElem?_eq_some_iff.mp hsize).1
    have hmem : size ∈ expand es := List.mem_of_getElem? hsize
    obtain ⟨e, he, hrep⟩ := List.mem_flatMap.mp hmem
    obtain rfl := List.eq_of_mem_replicate hrep
    exact ⟨e.1, offset, hsize, parseString_lt hes e he, getOffset_eq hfit' hp hoffset, hs, ho⟩
  have hpos' := fun p => (domain_extent hacc hpos d p).2
  apply tiles_distributed (by omega) (globalGridSize_lt cl d) hpos'
  · intro p
    obtain ⟨size, offset, hsize, hlt, -, hs, -⟩ := hwalk p
    have h0 := hpos' p
    rw [hs] at h0 ⊢
    have hsmall := i32_pos hlt h0
    rw [hsize, i32_eq (by omega) (by omega), Int.toNat_natCast]
  · intro p
    obtain ⟨size, offset, -, -, hoffset, -, ho⟩ := hwalk p
    rw [ho, hoffset]

theorem wrapped_tiles_iff :
    Tiles (fun p : Fin (cl.gpus d).toNat => (domain (Function.update pos d (p : ℕ))).gridOffset d)
      (fun p => (domain (Function.update pos d (p : ℕ))).gridSizeLocal d) 0 (cl.globalGridSize d) ↔
    SharesMeet es (cl.gpus d).toNat (cl.globalGridSize d) := by
  have hg := hacc.initDevices.1 d
  have hshare : ∀ p : Fin (cl.gpus d).toNat,
      (domain (Function.update pos d (p : ℕ))).gridSizeLocal d = shareSize es (p : ℕ) ∧
      (domain (Function.update pos d (p : ℕ))).gridOffset d = shareStart es (p : ℕ) := by
    intro p
    obtain ⟨size, offset, hsize, hoffset, hs, ho⟩ := domain_distributed hacc hpos htext hes p
    obtain ⟨h1, h2⟩ := share_eq hsize
    exact ⟨hs.trans h1, ho.trans (h2 hoffset)⟩
  have hs : ∀ p : Fin (cl.gpus d).toNat, 0 < shareSize es (p : ℕ) := fun p =>
    (hshare p).1 ▸ (domain_extent hacc hpos d p).2
  simp only [hshare]
  constructor
  · intro h
    exact (tiles_iff_starts_eq_ends (fun p => (hs p).le) (h.lt (hs ⟨0, by omega⟩)).le).mp h
  · intro h
    exact (tiles_iff_starts_eq_ends (fun p => (hs p).le) (le_of_starts_eq_ends (fun p => (hs p).le) h)).mpr h

end Distributed

/-- For every accepted command line the local domains tile the global grid in every dimension exactly when the
distribution is balanced. -/
theorem domains_tile_iff {mpiSize : ℕ} {domain : DataSpace D → LocalDomain D}
    (hacc : cl.Accepted c mpiSize domain) : cl.DomainsTile domain ↔ cl.Balanced D := by
  have hin : cl.InGrid (fun _ : Fin D => 0) := fun d => ⟨le_rfl, hacc.initDevices.1 d⟩
  constructor
  · intro h
    refine ⟨fun d hnone => ?_, fun d text es htext hes hfit => ?_, fun d text es htext hes _ => ?_⟩
    · exact (equal_tiles_iff hacc hin hnone).mp (h d _ hin)
    · exact (distributed_tiles_iff hacc hin htext hes hfit).mp (h d _ hin)
    · exact (wrapped_tiles_iff hacc hin htext hes).mp (h d _ hin)
  · intro h d pos hpos
    cases htext : cl.gridDistribution[(d : ℕ)]? with
    | none => exact (equal_tiles_iff hacc hpos htext).mpr (h.equal d htext)
    | some text =>
      obtain ⟨es, hes⟩ : ∃ es, parseString text = some es := by
        have hg := hacc.initDevices.1 d
        have hext := (domain_extent hacc hpos d ⟨0, by omega⟩).1
        simp only [localExtent, htext, Option.bind_eq_bind] at hext
        obtain ⟨es, hes, -⟩ := Option.bind_eq_some_iff.mp hext
        exact ⟨es, hes⟩
      rcases le_or_gt (walked (cl.gpus d).toNat es) 2147483648 with hfit | hwrap
      · exact (distributed_tiles_iff hacc hpos htext hes hfit).mpr (h.distributed d text es htext hes hfit)
      · exact (wrapped_tiles_iff hacc hpos htext hes).mpr (h.wrapped d text es htext hes hwrap)

def standard : SimulationConstants 3 where
  superCellSize := ![8, 8, 4]
  guardSize := 1
  absorberCells := fun _ _ => 32
  superCellSize_pos := by decide
  guardSize_pos := by decide

/-- `-d 9 1 1 -g 368 64 32`: equal shares of 40 cells leave 8 cells over. -/
def unequalShares : CommandLine := ⟨[9, 1, 1], [368, 64, 32], [], []⟩

/-- `-d 9 1 1 -g 400 64 32 --gridDist "40{10}"`: one entry more than devices. -/
def spareEntry : CommandLine := ⟨[9, 1, 1], [400, 64, 32], [['4', '0', '{', '1', '0', '}']], []⟩

/-- `-d 3 1 1 -g 144 64 32 --gridDist "40,64,40"`. -/
def balancedLine : CommandLine :=
  ⟨[3, 1, 1], [144, 64, 32], [['4', '0', ',', '6', '4', ',', '4', '0']], []⟩

def startedDomain (cl : CommandLine) (pos : DataSpace 3) : LocalDomain 3 :=
  (pluginLoad standard cl pos).getD ⟨0, 0⟩

theorem accepted_row {n : ℕ} (hgpus : ∀ d : Fin 3, cl.gpus d = if d = 0 then (n : ℤ) else 1)
    (hn : 0 < n) (hload : ∀ p : Fin n, (pluginLoad standard cl ![((p : ℕ) : ℤ), 0, 0]).isSome = true) :
    cl.Accepted standard n (startedDomain cl) := by
  refine ⟨⟨fun d => ?_, ?_⟩, fun pos hpos => ?_⟩
  · rw [hgpus]
    split_ifs <;> omega
  · simp [hgpus]
  · have h0 := hpos 0
    have h1 := hpos 1
    have h2 := hpos 2
    rw [hgpus] at h0 h1 h2
    simp at h0 h1 h2
    have hrow : pos = ![(((pos 0).toNat : ℕ) : ℤ), 0, 0] := by
      funext d
      fin_cases d <;> simp <;> omega
    have hsome := hload ⟨(pos 0).toNat, by omega⟩
    simp only [← hrow] at hsome
    obtain ⟨dom, hdom⟩ := Option.isSome_iff_exists.mp hsome
    simp [startedDomain, hdom]

theorem unequalShares_accepted : unequalShares.Accepted standard 9 (startedDomain unequalShares) :=
  accepted_row (by decide +kernel) (by decide) (by decide +kernel)

theorem spareEntry_accepted : spareEntry.Accepted standard 9 (startedDomain spareEntry) :=
  accepted_row (by decide +kernel) (by decide) (by decide +kernel)

theorem balancedLine_accepted : balancedLine.Accepted standard 3 (startedDomain balancedLine) :=
  accepted_row (by decide +kernel) (by decide) (by decide +kernel)

/-- Both distributions start and leave cells of the global grid to no device. -/
theorem unequalShares_not_tiled :
    (unequalShares.Accepted standard 9 (startedDomain unequalShares) ∧
      ¬ unequalShares.DomainsTile (startedDomain unequalShares)) ∧
    spareEntry.Accepted standard 9 (startedDomain spareEntry) ∧
      ¬ spareEntry.DomainsTile (startedDomain spareEntry) := by
  refine ⟨⟨unequalShares_accepted, fun h => ?_⟩, spareEntry_accepted, fun h => ?_⟩
  · have hin : unequalShares.InGrid (fun _ : Fin 3 => 0) := by
      unfold InGrid
      decide +kernel
    have hdvd := (equal_tiles_iff unequalShares_accepted hin (d := 0) rfl).mp (h 0 _ hin)
    exact absurd hdvd (by decide +kernel)
  · have hin : spareEntry.InGrid (fun _ : Fin 3 => 0) := by
      unfold InGrid
      decide +kernel
    have hes : parseString ['4', '0', '{', '1', '0', '}'] = some [(40, 10)] := by decide +kernel
    have hsum := (distributed_tiles_iff spareEntry_accepted hin (d := 0) rfl hes (by decide)).mp (h 0 _ hin)
    exact absurd hsum (by decide +kernel)

theorem balancedLine_balanced : balancedLine.Balanced 3 := by
  have hparse : parseString ['4', '0', ',', '6', '4', ',', '4', '0'] = some [(40, 1), (64, 1), (40, 1)] := by
    decide +kernel
  have htext : ∀ (d : Fin 3) text, balancedLine.gridDistribution[(d : ℕ)]? = some text →
      d = 0 ∧ text = ['4', '0', ',', '6', '4', ',', '4', '0'] := by
    intro d text h
    fin_cases d <;> simp_all [balancedLine]
  refine ⟨fun d hnone => ?_, fun d text es ht hes _ => ?_, fun d text es ht hes hwrap => ?_⟩
  · fin_cases d
    · simp [balancedLine] at hnone
    · decide +kernel
    · decide +kernel
  · obtain ⟨rfl, rfl⟩ := htext d text ht
    obtain rfl := Option.some.inj (hparse.symm.trans hes)
    decide +kernel
  · obtain ⟨rfl, rfl⟩ := htext d text ht
    obtain rfl := Option.some.inj (hparse.symm.trans hes)
    exact absurd hwrap (by decide +kernel)

theorem domains_tile_iff_balancedLine :
    balancedLine.Accepted standard 3 (startedDomain balancedLine) ∧
      balancedLine.DomainsTile (startedDomain balancedLine) :=
  ⟨balancedLine_accepted, (domains_tile_iff balancedLine_accepted).mpr balancedLine_balanced⟩

end CommandLine

end PIConGPU
