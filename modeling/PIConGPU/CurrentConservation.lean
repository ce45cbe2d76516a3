import PIConGPU.CurrentRegions
import PIConGPU.HaloExchange
import PIConGPU.IntervalTiling

/-!
# Conservation of the current over all ranks

Every rank sends the part of its guard that the particle shapes reach and adds what it receives to its
border. The order of the kernels is free as long as a buffer is received before it is inserted.
-/
namespace PIConGPU

open GridBuffer

namespace FieldJ

/-- A current field on all ranks of a periodic process grid, after some slides of the moving window. Along an
axis the number of supercells depends on the position of the rank. -/
structure Ranks (d : ℕ) where
  grid : ProcessGrid (d + 2)
  comm : ℕ → Communicator (d + 2)
  buffer : ℕ → GridBuffer (d + 2)
  superCells : Fin (d + 2) → ℤ → ℤ
  superCellSize : DataSpace (d + 2)
  originGuard : DataSpace (d + 2)
  endGuard : DataSpace (d + 2)
  slides : ℕ
  dim : d ≤ 1
  periodic : ∀ j, grid.periodic j = true
  comm_eq : ∀ r, Communicator.afterSlides grid r slides = some (comm r)
  size_pos : ∀ j, 0 < superCellSize j
  three_superCells : ∀ j c, 3 ≤ superCells j c
  margins : ∀ j, (0 ≤ originGuard j ∧ originGuard j ≤ superCellSize j) ∧ 0 ≤ endGuard j ∧ endGuard j ≤ superCellSize j
  registered : ∀ r < grid.size, ∃ communicationTag tags tags', addExchangeBuffers
    (exchangeSize ⟨fun j => superCells j ((comm r).coordinates j), 1, 1⟩ superCellSize originGuard endGuard)
    communicationTag (tags, .init (MappingDescription.getGridLayout
      ⟨fun j => superCells j ((comm r).coordinates j), 1, 1⟩ superCellSize)) = .ok (tags', buffer r)

namespace Ranks

variable {d : ℕ} (S : Ranks d) {V : Type*}

def mapping (r : ℕ) : MappingDescription (d + 2) := ⟨fun j => S.superCells j ((S.comm r).coordinates j), 1, 1⟩

def layout (r : ℕ) : GridLayout (d + 2) := (S.mapping r).getGridLayout S.superCellSize

def localCells (j : Fin (d + 2)) (c : ℤ) : ℤ := S.superCellSize j * (S.superCells j c - 2)

/-- Two cells of ranks that are the same cell of the periodic grid. -/
def SameCell (r : ℕ) (x : DataSpace (d + 2)) (r' : ℕ) (x' : DataSpace (d + 2)) : Prop := ∀ j,
  HaloExchange.globalCell S.comm S.localCells S.superCellSize r x j ≡
    HaloExchange.globalCell S.comm S.localCells S.superCellSize r' x' j [ZMOD HaloExchange.globalSize S.grid S.localCells j]

instance (r : ℕ) (x : DataSpace (d + 2)) (r' : ℕ) (x' : DataSpace (d + 2)) : Decidable (S.SameCell r x r' x') :=
  inferInstanceAs (Decidable (∀ _, _))

end Ranks

inductive Task
  | bashField (rank exchangeType : ℕ)
  | insertField (rank exchangeType : ℕ)
  deriving DecidableEq

structure State (D : ℕ) (V : Type*) where
  fieldJ : ℕ → DataSpace D → V
  sendBuffer : ℕ → ℕ → Option (DataSpace D → Option V)

namespace Ranks

section Tasks

variable {d : ℕ} (S : Ranks d) {V : Type*} [AddCommMonoid V]
  (threads : Task → List (DataSpace (d + 2) × DataSpace (d + 2)))

/-- The arguments of the kernel of a task, if the exchange exists. -/
def arguments : Task → Option (KernelArguments (d + 2))
  | .bashField r ex => ((S.buffer r).sendExchanges ex).map fun e =>
      kernelArguments (S.mapping r) S.superCellSize e.size ex
  | .insertField r i => ((S.buffer r).receiveExchanges i).map fun e =>
      kernelArguments (S.mapping r) S.superCellSize e.size i

/-- An insert needs what the neighbor has written for the mirrored direction. -/
def runTask (s : State (d + 2) V) (t : Task) : Option (State (d + 2) V) :=
  (S.arguments t).bind fun k =>
    match t with
    | .bashField r ex =>
      (KernelBashCurrent k (threads t) (s.fieldJ r)).map fun sent =>
        { s with sendBuffer := Function.update s.sendBuffer r (Function.update (s.sendBuffer r) ex (some sent)) }
    | .insertField r i =>
      (s.sendBuffer ((S.comm r).ranks i).toNat (Mask.mirrored i)).bind fun received =>
        (KernelInsertCurrent k (threads t) received (s.fieldJ r)).map fun fieldJ =>
          { s with fieldJ := Function.update s.fieldJ r fieldJ }

def run (tasks : List Task) (s : State (d + 2) V) : Option (State (d + 2) V) := tasks.foldlM (S.runTask threads) s

/-- An order of all bashes and inserts in which a buffer is received before it is inserted. -/
structure Schedule (tasks : List Task) : Prop where
  nodup : tasks.Nodup
  bashField : ∀ r ex, .bashField r ex ∈ tasks ↔ r < S.grid.size ∧ (1 ≤ ex ∧ ex < numberOfExchanges (d + 2)) ∧
    HaloExchange.hasSendExchange (S.comm r) (S.buffer r) ex = true
  insertField : ∀ r i, .insertField r i ∈ tasks ↔ r < S.grid.size ∧ (1 ≤ i ∧ i < numberOfExchanges (d + 2)) ∧
    HaloExchange.hasReceiveExchange (S.comm r) (S.buffer r) i = true
  received : ∀ r i l₁ l₂, tasks = l₁ ++ .insertField r i :: l₂ →
    .bashField ((S.comm r).ranks i).toNat (Mask.mirrored i) ∈ l₁

end Tasks

section Links

variable {d : ℕ} (S : Ranks d) {V : Type*}

theorem accepted (r : ℕ) : Accepted (S.mapping r) S.superCellSize S.originGuard S.endGuard :=
  ⟨rfl, S.size_pos, fun j => S.three_superCells j _, S.margins⟩

def size (r i : ℕ) : DataSpace (d + 2) := exchangeSize (S.mapping r) S.superCellSize S.originGuard S.endGuard i

theorem dataSpace_eq (r : ℕ) (j : Fin (d + 2)) :
    (S.layout r).dataSpace j = S.localCells j ((S.comm r).coordinates j) := by
  simp [layout, mapping, localCells, MappingDescription.getGridLayout]

theorem dataSpace_nonneg (r : ℕ) (j : Fin (d + 2)) : 0 ≤ (S.layout r).dataSpace j := by
  have h1 := (S.accepted r).layout j
  have h2 := S.size_pos j
  exact h2.le.trans h1.2.1

theorem updated (r : ℕ) : Communicator.Updated S.grid r (Communicator.slideOffset S.grid S.slides) (S.comm r) := by
  obtain ⟨c, hc, hu⟩ := Communicator.afterSlides_spec S.dim S.grid r S.slides
  obtain rfl := Option.some.inj (hc.symm.trans (S.comm_eq r))
  exact hu

theorem inside {r : ℕ} (hr : r < S.grid.size) : S.grid.Inside (S.comm r).coordinates := by
  rw [(S.updated r).coordinates_eq]
  exact Communicator.rotatedCoords_inside hr _

theorem isSet (r : ℕ) {i : ℕ} (hi : 1 ≤ i ∧ i < numberOfExchanges (d + 2)) :
    (S.comm r).communicationMask.isSet i = true :=
  ((S.updated r).isSet_iff i hi.1 hi.2).mpr fun j => Or.inr (S.periodic j)

theorem mirrored_range (S : Ranks d) {i : ℕ} (hi : 1 ≤ i ∧ i < numberOfExchanges (d + 2)) :
    (1 ≤ Mask.mirrored i ∧ Mask.mirrored i < numberOfExchanges (d + 2)) ∧ Mask.mirrored (Mask.mirrored i) = i := by
  have h27 := Communicator.numberOfExchanges_le S.dim
  have hd := S.dim
  exact ⟨⟨Mask.mirrored_pos hi.1 (by omega), Mask.mirrored_lt (by omega) hi.2⟩, Mask.mirrored_mirrored (by omega)⟩

def neighbor (r i : ℕ) : ℕ := ((S.comm r).ranks i).toNat

theorem neighbor_spec {r i : ℕ} (hr : r < S.grid.size) (hi : 1 ≤ i ∧ i < numberOfExchanges (d + 2)) :
    S.neighbor r i < S.grid.size ∧ S.neighbor (S.neighbor r i) (Mask.mirrored i) = r ∧
      (S.comm (S.neighbor r i)).coordinates = S.grid.wrap ((S.comm r).coordinates + getRelativeDirections (d + 2) i) := by
  obtain ⟨r', hr', hranks, hcoords, -, hback⟩ :=
    Communicator.Updated.neighbor S.dim S.updated hr hi.1 hi.2 (S.isSet r hi)
  have hn : S.neighbor r i = r' := by simp [neighbor, hranks]
  rw [hn]
  exact ⟨hr', by simp [neighbor, hback], hcoords⟩

theorem registeredBuffers {r : ℕ} (hr : r < S.grid.size) :
    RegisteredBuffers (S.size r) {i | (1 ≤ i ∧ i < numberOfExchanges (d + 2)) ∧ ∏ j, S.size r i j ≠ 0} (S.buffer r) := by
  have hd := S.dim
  obtain ⟨communicationTag, tags, tags', h⟩ := S.registered r hr
  exact registered_addExchangeBuffers (by omega) h

theorem size_neighbor {r i : ℕ} (hr : r < S.grid.size) (hi : 1 ≤ i ∧ i < numberOfExchanges (d + 2)) :
    S.size (S.neighbor r i) i = S.size r i := by
  obtain ⟨-, -, hcoords⟩ := S.neighbor_spec hr hi
  have hin := S.inside hr
  funext j
  simp only [size, exchangeSize_eq]
  split_ifs with h1 h2
  · rfl
  · rfl
  · have hj : getRelativeDirections (d + 2) i j = 0 := by
      have := getRelativeDirections_cases (d + 2) i j
      omega
    have hw : (S.comm (S.neighbor r i)).coordinates j = (S.comm r).coordinates j := by
      rw [hcoords, ProcessGrid.wrap, Pi.add_apply, hj, add_zero]
      exact Int.emod_eq_of_lt (hin j).1 (hin j).2
    change (S.layout _).dataSpace j = (S.layout r).dataSpace j
    rw [dataSpace_eq, dataSpace_eq, hw]

theorem hasReceiveExchange_iff {r i : ℕ} (hr : r < S.grid.size) (hi : 1 ≤ i ∧ i < numberOfExchanges (d + 2)) :
    HaloExchange.hasReceiveExchange (S.comm r) (S.buffer r) i = true ↔ ∏ j, S.size r i j ≠ 0 := by
  have hreg := S.registeredBuffers hr
  simp only [HaloExchange.hasReceiveExchange, Bool.and_eq_true, Mask.isSet_inter, S.isSet r hi, true_and,
    hreg.receiveMask, Set.mem_ofPred_eq]
  constructor
  · rintro ⟨-, -, hsize⟩
    exact hsize
  · intro hsize
    obtain ⟨re, hre, -⟩ := hreg.receive i ⟨hi, hsize⟩
    exact ⟨by simp [hre], hi, hsize⟩

theorem hasSendExchange_iff {r i : ℕ} (hr : r < S.grid.size) (hi : 1 ≤ i ∧ i < numberOfExchanges (d + 2)) :
    HaloExchange.hasSendExchange (S.comm r) (S.buffer r) (Mask.mirrored i) = true ↔ ∏ j, S.size r i j ≠ 0 := by
  have h27 := Communicator.numberOfExchanges_le S.dim
  have hreg := S.registeredBuffers hr
  obtain ⟨hm, hmm⟩ := S.mirrored_range hi
  simp only [HaloExchange.hasSendExchange, Bool.and_eq_true, Mask.isSet_inter, S.isSet r hm, true_and,
    hreg.sendMask, Set.mem_ofPred_eq, hmm]
  constructor
  · rintro ⟨-, -, -, hsize⟩
    exact hsize
  · intro hsize
    obtain ⟨se, hse, -⟩ := hreg.send i ⟨hi, hsize⟩
    exact ⟨by simp [hse], ⟨hm.1, by omega⟩, hi, hsize⟩

theorem arguments_insertField {r i : ℕ} (hr : r < S.grid.size) (hi : 1 ≤ i ∧ i < numberOfExchanges (d + 2))
    (hsize : ∏ j, S.size r i j ≠ 0) :
    S.arguments (.insertField r i) = some (kernelArguments (S.mapping r) S.superCellSize (S.size r i) i) := by
  obtain ⟨re, hre, hre'⟩ := (S.registeredBuffers hr).receive i ⟨hi, hsize⟩
  rw [arguments, hre, Option.map_some, hre']

theorem arguments_bashField {r i : ℕ} (hr : r < S.grid.size) (hi : 1 ≤ i ∧ i < numberOfExchanges (d + 2))
    (hsize : ∏ j, S.size r i j ≠ 0) :
    S.arguments (.bashField r (Mask.mirrored i)) =
      some (kernelArguments (S.mapping r) S.superCellSize (S.size r i) (Mask.mirrored i)) := by
  obtain ⟨se, hse, hse'⟩ := (S.registeredBuffers hr).send i ⟨hi, hsize⟩
  rw [arguments, hse, Option.map_some, hse']

end Links

section Runs

variable {d : ℕ} (S : Ranks d) {V : Type*} (J : ℕ → DataSpace (d + 2) → V)

def bashed (r i : ℕ) : DataSpace (d + 2) → Option V := fun p =>
  if p ∈ launchBox (S.size r i) then
    some (J r (p + bashOrigin (S.mapping r) S.superCellSize (S.size r i) (Mask.mirrored i))) else none

def element (r i : ℕ) (x : DataSpace (d + 2)) : DataSpace (d + 2) :=
  x - insertOrigin (S.mapping r) S.superCellSize (S.size r i) i

/-- The guard cell of the neighbor in direction `i` that is added to a cell. -/
def source (r i : ℕ) (x : DataSpace (d + 2)) : DataSpace (d + 2) :=
  S.element r i x + bashOrigin (S.mapping (S.neighbor r i)) S.superCellSize (S.size (S.neighbor r i) i) (Mask.mirrored i)

/-- What a cell gets from the neighbor in direction `i`. -/
def received [AddCommMonoid V] (r i : ℕ) (x : DataSpace (d + 2)) : V :=
  if S.element r i x ∈ launchBox (S.size r i) then J (S.neighbor r i) (S.source r i x) else 0

theorem interior_of_element {r i : ℕ} {x : DataSpace (d + 2)} (hx : S.element r i x ∈ launchBox (S.size r i)) :
    Interior (S.layout r) x := by
  have h := (S.accepted r).interior_insert hx
  rwa [← size, element, sub_add_cancel] at h

theorem bash_inHalo {r i : ℕ} {p : DataSpace (d + 2)} (hp : p ∈ launchBox (S.size r i)) :
    InHalo (S.layout r) S.originGuard S.endGuard (Mask.mirrored i)
      (p + bashOrigin (S.mapping r) S.superCellSize (S.size r i) (Mask.mirrored i)) := by
  have hd := S.dim
  exact ((S.accepted r).mem_launchBox_iff (by omega) i p).mp hp

variable [AddCommMonoid V]

structure After (l : List Task) (s : State (d + 2) V) : Prop where
  sent : ∀ r i, 1 ≤ i ∧ i < numberOfExchanges (d + 2) → .bashField r (Mask.mirrored i) ∈ l →
    s.sendBuffer r (Mask.mirrored i) = some (S.bashed J r i)
  field : ∀ r x, s.fieldJ r x = J r x + ∑ i ∈ Finset.Ico 1 (numberOfExchanges (d + 2)),
    if .insertField r i ∈ l then S.received J r i x else 0

variable {S J} {l : List Task} {s : State (d + 2) V}

theorem After.guard (h : S.After J l s) {r : ℕ} {x : DataSpace (d + 2)} (hx : ¬Interior (S.layout r) x) :
    s.fieldJ r x = J r x := by
  rw [h.field]
  have hzero : ∀ i ∈ Finset.Ico 1 (numberOfExchanges (d + 2)),
      (if Task.insertField r i ∈ l then S.received J r i x else 0) = 0 := fun i _ => by
    have hnone : ¬S.element r i x ∈ launchBox (S.size r i) := fun he => hx (S.interior_of_element he)
    simp [received, hnone]
  rw [Finset.sum_eq_zero hzero, add_zero]

variable {threads : Task → List (DataSpace (d + 2) × DataSpace (d + 2))}

theorem runTask_bashField {r ex : ℕ} {k : KernelArguments (d + 2)} {sent : DataSpace (d + 2) → Option V}
    (harg : S.arguments (.bashField r ex) = some k)
    (hsent : KernelBashCurrent k (threads (.bashField r ex)) (s.fieldJ r) = some sent) :
    S.runTask threads s (.bashField r ex) = some { s with
      sendBuffer := Function.update s.sendBuffer r (Function.update (s.sendBuffer r) ex (some sent)) } := by
  simp [runTask, harg, hsent]

theorem runTask_insertField {r i : ℕ} {k : KernelArguments (d + 2)} {sent : DataSpace (d + 2) → Option V}
    {fieldJ : DataSpace (d + 2) → V} (harg : S.arguments (.insertField r i) = some k)
    (hsent : s.sendBuffer (S.neighbor r i) (Mask.mirrored i) = some sent)
    (hfield : KernelInsertCurrent k (threads (.insertField r i)) sent (s.fieldJ r) = some fieldJ) :
    S.runTask threads s (.insertField r i) = some { s with fieldJ := Function.update s.fieldJ r fieldJ } := by
  rw [neighbor] at hsent
  simp [runTask, harg, hsent, hfield]

theorem After.bashField (h : S.After J l s) {r i : ℕ} (hr : r < S.grid.size)
    (hi : 1 ≤ i ∧ i < numberOfExchanges (d + 2)) (hsize : ∏ j, S.size r i j ≠ 0)
    (hl : ∀ k, S.arguments (.bashField r (Mask.mirrored i)) = some k →
      Launched k (threads (.bashField r (Mask.mirrored i)))) :
    ∃ s', S.runTask threads s (.bashField r (Mask.mirrored i)) = some s' ∧
      S.After J (l ++ [.bashField r (Mask.mirrored i)]) s' := by
  have hd := S.dim
  have h27 := Communicator.numberOfExchanges_le S.dim
  have harg := S.arguments_bashField hr hi hsize
  have hmirror := Mask.getRelativeDirections_mirrored (D := d + 2) (by omega) i
  have hfits : Fits (kernelArguments (S.mapping r) S.superCellSize (S.size r i) (Mask.mirrored i)) :=
    (S.accepted r).fits fun j => by simp [hmirror]
  have hkernel := KernelBashCurrent_eq rfl hfits (hl _ harg) (s.fieldJ r) fun p hp =>
    (S.accepted r).mem_field_of_inHalo (S.bash_inHalo hp)
  have hbashed : (fun p => if p ∈ launchBox (S.size r i) then
      some (s.fieldJ r (p + bashOrigin (S.mapping r) S.superCellSize (S.size r i) (Mask.mirrored i))) else none) =
        S.bashed J r i := by
    funext p
    rw [bashed]
    split_ifs with hp
    · rw [h.guard fun hin => not_inHalo_of_interior (S.mirrored_range hi).1.1 (S.mirrored_range hi).1.2 hin
        (S.bash_inHalo hp)]
    · rfl
  rw [hbashed] at hkernel
  refine ⟨_, runTask_bashField harg hkernel, ⟨fun r' i' hi' hmem => ?_, fun r' x => ?_⟩⟩
  · dsimp only
    by_cases hr' : r' = r
    · subst hr'
      rw [Function.update_self]
      by_cases hm : Mask.mirrored i' = Mask.mirrored i
      · have hii : i' = i := by
          rw [← Mask.mirrored_mirrored (show i' < 27 by omega), hm, Mask.mirrored_mirrored (by omega)]
        rw [hii, Function.update_self]
      · rw [Function.update_of_ne hm]
        exact h.sent r' i' hi' (by simpa [hm] using hmem)
    · rw [Function.update_of_ne hr']
      exact h.sent r' i' hi' (by simpa [hr'] using hmem)
  · rw [h.field]
    simp

theorem After.insertField (h : S.After J l s) {r i : ℕ} (hr : r < S.grid.size)
    (hi : 1 ≤ i ∧ i < numberOfExchanges (d + 2)) (hsize : ∏ j, S.size r i j ≠ 0)
    (hnew : .insertField r i ∉ l) (hsent : .bashField (S.neighbor r i) (Mask.mirrored i) ∈ l)
    (hl : ∀ k, S.arguments (.insertField r i) = some k → Launched k (threads (.insertField r i))) :
    ∃ s', S.runTask threads s (.insertField r i) = some s' ∧ S.After J (l ++ [.insertField r i]) s' := by
  have harg := S.arguments_insertField hr hi hsize
  have hfits : Fits (kernelArguments (S.mapping r) S.superCellSize (S.size r i) i) :=
    (S.accepted r).fits fun j => Iff.rfl
  have hvalue : ∀ p ∈ launchBox (S.size r i), S.bashed J (S.neighbor r i) i p =
      some (J (S.neighbor r i) (p + bashOrigin (S.mapping (S.neighbor r i)) S.superCellSize
        (S.size (S.neighbor r i) i) (Mask.mirrored i))) := fun p hp => by
    rw [bashed, if_pos (by rwa [S.size_neighbor hr hi])]
  have hkernel := KernelInsertCurrent_eq rfl hfits (hl _ harg) hvalue (s.fieldJ r) fun p hp =>
    (S.accepted r).mem_field_of_interior ((S.accepted r).interior_insert hp)
  refine ⟨_, runTask_insertField harg (h.sent _ _ hi hsent) hkernel,
    ⟨fun r' i' hi' hmem => h.sent r' i' hi' (by simpa using hmem), fun r' x => ?_⟩⟩
  dsimp only
  by_cases hr' : r' = r
  · subst hr'
    have hsplit : ∀ k, (if Task.insertField r' k ∈ l ++ [.insertField r' i] then S.received J r' k x else 0) =
        (if Task.insertField r' k ∈ l then S.received J r' k x else 0) + if k = i then S.received J r' i x else 0 := by
      intro k
      by_cases hk : k = i
      · simp [hk, hnew]
      · simp [hk]
    have hmem : i ∈ Finset.Ico 1 (numberOfExchanges (d + 2)) := Finset.mem_Ico.mpr hi
    rw [Function.update_self, h.field, Finset.sum_congr rfl fun k _ => hsplit k, Finset.sum_add_distrib,
      Finset.sum_ite_eq' _ i, if_pos hmem, add_assoc]
    rfl
  · rw [Function.update_of_ne hr', h.field]
    simp [hr']

/-- Every order of the tasks runs to the end. -/
theorem Schedule.run_after {tasks : List Task} (ht : S.Schedule tasks)
    (hl : ∀ t ∈ tasks, ∀ k, S.arguments t = some k → Launched k (threads t)) :
    ∃ s, S.run threads tasks ⟨J, fun _ _ => none⟩ = some s ∧ S.After J tasks s := by
  suffices hprefix : ∀ l₁ l₂, tasks = l₁ ++ l₂ →
      ∃ s, S.run threads l₁ ⟨J, fun _ _ => none⟩ = some s ∧ S.After J l₁ s from
    hprefix tasks [] (List.append_nil tasks).symm
  intro l₁
  induction l₁ using List.reverseRecOn with
  | nil => exact fun l₂ _ => ⟨_, rfl, ⟨by simp, by simp⟩⟩
  | append_singleton l t ih =>
    intro l₂ heq
    rw [List.append_assoc] at heq
    obtain ⟨s, hs, hafter⟩ := ih _ heq
    have htask : t ∈ tasks := by simp [heq]
    have hstep : ∃ s', S.runTask threads s t = some s' ∧ S.After J (l ++ [t]) s' := by
      cases t with
      | bashField r ex =>
        obtain ⟨hr, hex, hhas⟩ := (ht.bashField r ex).mp htask
        obtain ⟨hm, hmm⟩ := S.mirrored_range hex
        rw [← hmm] at hhas htask ⊢
        exact hafter.bashField hr hm ((S.hasSendExchange_iff hr hm).mp hhas) (hl _ htask)
      | insertField r i =>
        obtain ⟨hr, hi, hhas⟩ := (ht.insertField r i).mp htask
        have hnew : Task.insertField r i ∉ l := fun hmem => by
          have hnd := ht.nodup
          rw [heq, List.nodup_append] at hnd
          exact hnd.2.2 _ hmem _ (by simp) rfl
        exact hafter.insertField hr hi ((S.hasReceiveExchange_iff hr hi).mp hhas) hnew
          (ht.received r i l l₂ (by simpa using heq)) (hl _ htask)
    obtain ⟨s', hs', hafter'⟩ := hstep
    refine ⟨s', ?_, hafter'⟩
    rw [run] at hs ⊢
    rw [List.foldlM_append, hs]
    simpa using hs'

end Runs

section SameCells

variable {d : ℕ} {S : Ranks d} {V : Type*}

/-- Extents along an axis divide it, so that a cell belongs to one position only. -/
theorem position_unique {n : ℕ} {f : ℤ → ℤ} (hf : ∀ c, 0 ≤ f c) {c c' a a' : ℤ} (hc : 0 ≤ c ∧ c < n)
    (hc' : 0 ≤ c' ∧ c' < n) (ha : 0 ≤ a ∧ a < f c) (ha' : 0 ≤ a' ∧ a' < f c')
    (h : (∑ e ∈ Finset.range c.toNat, f e) + a ≡ (∑ e ∈ Finset.range c'.toNat, f e) + a'
      [ZMOD ∑ e ∈ Finset.range n, f e]) : c = c' ∧ a = a' := by
  have htiles : IntervalTiling.Tiles (fun i : Fin n => ∑ e ∈ Finset.range i, f e) (fun i => f i)
      (∑ e ∈ Finset.range 0, f e) (∑ e ∈ Finset.range n, f e) :=
    IntervalTiling.tiles_of_boundaries (b := fun k => ∑ e ∈ Finset.range k, f e)
      (monotone_nat_of_le_succ fun k => by rw [Finset.sum_range_succ]; have := hf k; omega) (fun i => rfl)
      fun i => by rw [Finset.sum_range_succ]; ring
  have htile : ∀ {c a : ℤ} (hc : 0 ≤ c ∧ c < n), 0 ≤ a ∧ a < f c →
      (∑ e ∈ Finset.range c.toNat, f e) ≤ (∑ e ∈ Finset.range c.toNat, f e) + a ∧
        (∑ e ∈ Finset.range c.toNat, f e) + a < (∑ e ∈ Finset.range c.toNat, f e) + f (c.toNat : ℕ) := fun hc ha => by
    rw [Int.toNat_of_nonneg hc.1]
    omega
  have hrange := (htiles.covers _).mp ⟨⟨c.toNat, by omega⟩, htile hc ha⟩
  have hrange' := (htiles.covers _).mp ⟨⟨c'.toNat, by omega⟩, htile hc' ha'⟩
  rw [Finset.sum_range_zero] at hrange hrange'
  rw [Int.ModEq, Int.emod_eq_of_lt hrange.1 hrange.2, Int.emod_eq_of_lt hrange'.1 hrange'.2] at h
  have htile' := htile hc' ha'
  rw [← h] at htile'
  have hindex := congrArg Fin.val (htiles.disjoint ⟨c.toNat, by omega⟩ ⟨c'.toNat, by omega⟩ _ (htile hc ha) htile')
  dsimp only at hindex
  refine ⟨by omega, ?_⟩
  rw [hindex] at h
  omega

/-- The interiors of the ranks do not overlap. -/
theorem SameCell.unique {r r' : ℕ} {x x' : DataSpace (d + 2)} (hr : r < S.grid.size) (hr' : r' < S.grid.size)
    (hx : Interior (S.layout r) x) (hx' : Interior (S.layout r') x') (h : S.SameCell r x r' x') : r = r' ∧ x = x' := by
  have hcells : ∀ j, (S.comm r).coordinates j = (S.comm r').coordinates j ∧
      x j - S.superCellSize j = x' j - S.superCellSize j := fun j => by
    have hlocal := fun r => S.dataSpace_eq r j
    have hguard := fun r => ((S.accepted r).layout j).1
    have h1 := hx j
    have h2 := hx' j
    have hg1 : (S.layout r).guard j = S.superCellSize j := hguard r
    have hg2 : (S.layout r').guard j = S.superCellSize j := hguard r'
    rw [hg1, hlocal] at h1
    rw [hg2, hlocal] at h2
    refine position_unique (fun c => ?_) (S.inside hr j) (S.inside hr' j) (by omega) (by omega) (h j)
    have h3 := S.size_pos j
    have h4 := S.three_superCells j c
    exact mul_nonneg h3.le (by omega)
  have hcoords : (S.comm r).coordinates = (S.comm r').coordinates := funext fun j => (hcells j).1
  rw [(S.updated r).coordinates_eq, (S.updated r').coordinates_eq] at hcoords
  refine ⟨Communicator.rotatedCoords_injOn S.grid _ hr hr' hcoords, funext fun j => ?_⟩
  have := (hcells j).2
  omega

theorem sameCell_source {r i : ℕ} (hr : r < S.grid.size) (hi : 1 ≤ i ∧ i < numberOfExchanges (d + 2))
    (x : DataSpace (d + 2)) : S.SameCell (S.neighbor r i) (S.source r i x) r x := by
  have hd := S.dim
  intro j
  refine HaloExchange.globalCell_modEq (S.neighbor_spec hr hi).2.2 (S.inside hr) j ?_
  have hm := congrFun (Mask.getRelativeDirections_mirrored (D := d + 2) (by omega) i) j
  have h1 := (S.accepted r).layout j
  have h2 := (S.accepted (S.neighbor r i)).layout j
  have h3 : (S.layout r).dataSpace j = _ := S.dataSpace_eq r j
  have h4 : (S.layout (S.neighbor r i)).dataSpace j = _ := S.dataSpace_eq (S.neighbor r i) j
  rw [layout] at h3 h4
  rw [Pi.neg_apply] at hm
  rw [source, element, Pi.add_apply, Pi.sub_apply, bashOrigin, insertOrigin, hm, S.size_neighbor hr hi, ← h3, ← h4]
  rcases getRelativeDirections_cases (d + 2) i j with hj | hj | hj <;> rw [hj] <;> norm_num <;> omega

theorem source_inHalo {r i : ℕ} (hr : r < S.grid.size) (hi : 1 ≤ i ∧ i < numberOfExchanges (d + 2))
    {x : DataSpace (d + 2)} (hx : S.element r i x ∈ launchBox (S.size r i)) :
    InHalo (S.layout (S.neighbor r i)) S.originGuard S.endGuard (Mask.mirrored i) (S.source r i x) :=
  S.bash_inHalo (by rwa [S.size_neighbor hr hi])

/-- A guard cell within the margins is added to a cell of the neighbor. -/
theorem exists_target {r i : ℕ} (hr : r < S.grid.size) (hi : 1 ≤ i ∧ i < numberOfExchanges (d + 2))
    {y : DataSpace (d + 2)} (hy : InHalo (S.layout r) S.originGuard S.endGuard i y) :
    ∃ x, S.element (S.neighbor r i) (Mask.mirrored i) x ∈ launchBox (S.size (S.neighbor r i) (Mask.mirrored i)) ∧
      S.source (S.neighbor r i) (Mask.mirrored i) x = y := by
  have hd := S.dim
  obtain ⟨hr', hback, -⟩ := S.neighbor_spec hr hi
  obtain ⟨hm, hmm⟩ := S.mirrored_range hi
  have hsize : S.size (S.neighbor r i) (Mask.mirrored i) = S.size r (Mask.mirrored i) := by
    conv_rhs => rw [← hback]
    exact (S.size_neighbor hr' hm).symm
  let origin := bashOrigin (S.mapping r) S.superCellSize (S.size r (Mask.mirrored i)) i
  have hp : y - origin ∈ launchBox (S.size r (Mask.mirrored i)) := by
    refine ((S.accepted r).mem_launchBox_iff (by omega) (Mask.mirrored i) _).mpr ?_
    rw [hmm, ← size, sub_add_cancel]
    exact hy
  refine ⟨y - origin + insertOrigin (S.mapping (S.neighbor r i)) S.superCellSize
    (S.size (S.neighbor r i) (Mask.mirrored i)) (Mask.mirrored i), ?_, ?_⟩
  · rw [element, add_sub_cancel_right, hsize]
    exact hp
  · rw [source, element, add_sub_cancel_right, hback, hmm, sub_add_cancel]

end SameCells

section Sums

variable {d : ℕ} (S : Ranks d) {V : Type*} [AddCommMonoid V] (J : ℕ → DataSpace (d + 2) → V)

def marginCells (r : ℕ) : Finset (DataSpace (d + 2)) := FieldJ.marginCells (S.layout r) S.originGuard S.endGuard

theorem mem_marginCells {r : ℕ} {y : DataSpace (d + 2)} : y ∈ S.marginCells r ↔
    ∃ i, (1 ≤ i ∧ i < numberOfExchanges (d + 2)) ∧ InHalo (S.layout r) S.originGuard S.endGuard i y :=
  FieldJ.mem_marginCells (fun j => ⟨(S.margins j).1.1, (S.margins j).2.1⟩) (S.dataSpace_nonneg r)

variable {S J} {r : ℕ} {x : DataSpace (d + 2)}

/-- What a cell gets are the values of all guard cells within the margins that are the same cell. -/
theorem sum_received (hr : r < S.grid.size) (hx : Interior (S.layout r) x) :
    ∑ i ∈ Finset.Ico 1 (numberOfExchanges (d + 2)), S.received J r i x =
      ∑ r' ∈ Finset.range S.grid.size, ∑ y ∈ S.marginCells r', if S.SameCell r' y r x then J r' y else 0 := by
  have h27 := Communicator.numberOfExchanges_le S.dim
  rw [Finset.sum_sigma', ← Finset.sum_filter]
  simp only [received]
  rw [← Finset.sum_filter]
  refine Finset.sum_bij (fun i _ => ⟨S.neighbor r i, S.source r i x⟩) ?_ ?_ ?_ fun i _ => rfl
  · intro i hi
    obtain ⟨hi, hbox⟩ := Finset.mem_filter.mp hi
    have hi := Finset.mem_Ico.mp hi
    refine Finset.mem_filter.mpr ⟨Finset.mem_sigma.mpr ⟨Finset.mem_range.mpr (S.neighbor_spec hr hi).1, ?_⟩,
      sameCell_source hr hi x⟩
    exact S.mem_marginCells.mpr ⟨_, (S.mirrored_range hi).1, source_inHalo hr hi hbox⟩
  · intro i hi k hk heq
    obtain ⟨hi, hbox⟩ := Finset.mem_filter.mp hi
    obtain ⟨hk, hbox'⟩ := Finset.mem_filter.mp hk
    have hi := Finset.mem_Ico.mp hi
    have hk := Finset.mem_Ico.mp hk
    obtain ⟨hn, hs⟩ := Sigma.mk.inj heq
    have h1 := source_inHalo hr hi hbox
    have h2 := source_inHalo hr hk hbox'
    rw [hn, eq_of_heq hs] at h1
    have hm := InHalo.direction_unique (S.dataSpace_nonneg _) (S.mirrored_range hi).1.2 (S.mirrored_range hk).1.2 h1 h2
    rw [← (S.mirrored_range hi).2, hm, (S.mirrored_range hk).2]
  · rintro ⟨r', y⟩ hq
    obtain ⟨hq, hsame⟩ := Finset.mem_filter.mp hq
    obtain ⟨hr', hy⟩ := Finset.mem_sigma.mp hq
    obtain ⟨i, hi, hhalo⟩ := S.mem_marginCells.mp hy
    have hr' := Finset.mem_range.mp hr'
    obtain ⟨hn, hback, -⟩ := S.neighbor_spec hr' hi
    obtain ⟨hm, hmm⟩ := S.mirrored_range hi
    obtain ⟨x', hbox, hsource⟩ := exists_target hr' hi hhalo
    have hsame' := sameCell_source hn hm x'
    rw [hback, hsource] at hsame'
    have hcell : S.SameCell r x (S.neighbor r' i) x' := fun j => (hsame j).symm.trans (hsame' j)
    obtain ⟨rfl, rfl⟩ := hcell.unique hr hn hx (S.interior_of_element hbox)
    refine ⟨Mask.mirrored i, Finset.mem_filter.mpr ⟨Finset.mem_Ico.mpr hm, hbox⟩, ?_⟩
    rw [hback, hsource]

/-- A guard cell within the margins is a copy of exactly one cell, in the interior of a neighbor. -/
theorem existsUnique_target (hr : r < S.grid.size) {y : DataSpace (d + 2)} {i : ℕ}
    (hi : 1 ≤ i ∧ i < numberOfExchanges (d + 2)) (hy : InHalo (S.layout r) S.originGuard S.endGuard i y) :
    ∃ x, (Interior (S.layout (S.neighbor r i)) x ∧ S.SameCell r y (S.neighbor r i) x) ∧
      ∀ r' < S.grid.size, ∀ x', Interior (S.layout r') x' → S.SameCell r y r' x' → r' = S.neighbor r i ∧ x' = x := by
  obtain ⟨hn, hback, -⟩ := S.neighbor_spec hr hi
  obtain ⟨x, hbox, hsource⟩ := exists_target hr hi hy
  have hsame := sameCell_source hn (S.mirrored_range hi).1 x
  rw [hback, hsource] at hsame
  refine ⟨x, ⟨S.interior_of_element hbox, hsame⟩, fun r' hr' x' hx' hsame' => ?_⟩
  have hcell : S.SameCell r' x' (S.neighbor r i) x := fun j => (hsame' j).symm.trans (hsame j)
  exact hcell.unique hr' hn hx' (S.interior_of_element hbox)

/-- All values of the guard within the margins arrive in the interiors. -/
theorem sum_interior : ∑ r ∈ Finset.range S.grid.size, ∑ x ∈ interiorCells (S.layout r),
      ∑ r' ∈ Finset.range S.grid.size, ∑ y ∈ S.marginCells r', (if S.SameCell r' y r x then J r' y else 0) =
    ∑ r ∈ Finset.range S.grid.size, ∑ y ∈ S.marginCells r, J r y := by
  have hinner : ∀ r x, (∑ r' ∈ Finset.range S.grid.size, ∑ y ∈ S.marginCells r',
      if S.SameCell r' y r x then J r' y else 0) = ∑ q ∈ (Finset.range S.grid.size).sigma S.marginCells,
        if S.SameCell q.1 q.2 r x then J q.1 q.2 else 0 := fun r x => Finset.sum_sigma' _ _ _
  simp only [hinner]
  rw [Finset.sum_sigma', Finset.sum_comm, Finset.sum_sigma' _ _ J]
  refine Finset.sum_congr rfl fun q hq => ?_
  obtain ⟨hr, hy⟩ := Finset.mem_sigma.mp hq
  obtain ⟨i, hi, hhalo⟩ := S.mem_marginCells.mp hy
  have hr := Finset.mem_range.mp hr
  obtain ⟨x, ⟨hx, hsame⟩, hunique⟩ := existsUnique_target hr hi hhalo
  rw [Finset.sum_eq_single ⟨S.neighbor q.1 i, x⟩]
  · exact if_pos hsame
  · rintro ⟨r', x'⟩ hp hne
    obtain ⟨hr', hx'⟩ := Finset.mem_sigma.mp hp
    refine if_neg fun hsame' => hne ?_
    obtain ⟨h1, h2⟩ := hunique r' (Finset.mem_range.mp hr') x' (mem_interiorCells.mp hx') hsame'
    rw [h1, h2]
  · intro hnot
    exact absurd (Finset.mem_sigma.mpr ⟨Finset.mem_range.mpr (S.neighbor_spec hr hi).1, mem_interiorCells.mpr hx⟩) hnot

/-- After all tasks a cell has its own value and that of each copy in a guard. -/
theorem After.interior {tasks : List Task} {s : State (d + 2) V} (ht : S.Schedule tasks) (h : S.After J tasks s)
    (hr : r < S.grid.size) (hx : Interior (S.layout r) x) :
    s.fieldJ r x = J r x + ∑ r' ∈ Finset.range S.grid.size, ∑ y ∈ S.marginCells r',
      if S.SameCell r' y r x then J r' y else 0 := by
  rw [h.field, ← sum_received hr hx]
  congr 1
  refine Finset.sum_congr rfl fun i hi => ?_
  have hi := Finset.mem_Ico.mp hi
  by_cases hsize : ∏ j, S.size r i j = 0
  · obtain ⟨j, -, hj⟩ := Finset.prod_eq_zero_iff.mp hsize
    have hnone : ¬S.element r i x ∈ launchBox (S.size r i) := fun he => by
      have := he j
      omega
    simp [received, hnone]
  · rw [if_pos ((ht.insertField r i).mpr ⟨hr, hi, (S.hasReceiveExchange_iff hr hi).mpr hsize⟩)]

end Sums

end Ranks

/-- Exchange of the current: in every order of the kernels and of their threads all buffers are written
completely and within their bounds, each guard value within the margins is added to the one interior cell
that is the same cell of the grid, and the sum over all interiors takes up the guards within the margins. -/
theorem current_conserved {d : ℕ} (S : Ranks d) {V : Type*} [AddCommMonoid V] (J : ℕ → DataSpace (d + 2) → V)
    {tasks : List Task} (ht : S.Schedule tasks) {threads : Task → List (DataSpace (d + 2) × DataSpace (d + 2))}
    (hl : ∀ t ∈ tasks, ∀ k, S.arguments t = some k → Launched k (threads t)) :
    ∃ s, S.run threads tasks ⟨J, fun _ _ => none⟩ = some s ∧
      (∀ r ex, .bashField r ex ∈ tasks → ∃ e b, (S.buffer r).sendExchanges ex = some e ∧
        s.sendBuffer r ex = some b ∧ ∀ p, (b p).isSome = true ↔ p ∈ launchBox e.size) ∧
      (∀ r < S.grid.size, ∀ i, 1 ≤ i ∧ i < numberOfExchanges (d + 2) →
        ∀ y, InHalo (S.layout r) S.originGuard S.endGuard i y →
          ∃ r' : ℕ, (S.comm r).ranks i = r' ∧ r' < S.grid.size ∧
            ∃ x, (Interior (S.layout r') x ∧ S.SameCell r y r' x) ∧
              ∀ r'' < S.grid.size, ∀ x', Interior (S.layout r'') x' → S.SameCell r y r'' x' → r'' = r' ∧ x' = x) ∧
      (∀ r < S.grid.size, ∀ x, Interior (S.layout r) x → s.fieldJ r x =
        J r x + ∑ r' ∈ Finset.range S.grid.size, ∑ y ∈ S.marginCells r', if S.SameCell r' y r x then J r' y else 0) ∧
      (∀ r x, ¬Interior (S.layout r) x → s.fieldJ r x = J r x) ∧
      ∑ r ∈ Finset.range S.grid.size, ∑ x ∈ interiorCells (S.layout r), s.fieldJ r x =
        (∑ r ∈ Finset.range S.grid.size, ∑ x ∈ interiorCells (S.layout r), J r x) +
          ∑ r ∈ Finset.range S.grid.size, ∑ y ∈ S.marginCells r, J r y := by
  obtain ⟨s, hs, hafter⟩ := ht.run_after hl (J := J)
  refine ⟨s, hs, fun r ex hmem => ?_, fun r hr i hi y hy => ?_, fun r hr x hx => hafter.interior ht hr hx,
    fun r x hx => hafter.guard hx, ?_⟩
  · obtain ⟨hr, hex, hhas⟩ := (ht.bashField r ex).mp hmem
    obtain ⟨hm, hmm⟩ := S.mirrored_range hex
    rw [← hmm] at hmem hhas
    obtain ⟨e, he, hsize⟩ := (S.registeredBuffers hr).send _ ⟨hm, (S.hasSendExchange_iff hr hm).mp hhas⟩
    have hsent := hafter.sent r _ hm hmem
    rw [hmm] at he hsent
    refine ⟨e, _, he, hsent, fun p => ?_⟩
    rw [Ranks.bashed, hsize]
    split_ifs with hp <;> simp [hp]
  · obtain ⟨r', hr', hranks, -⟩ :=
      Communicator.Updated.neighbor S.dim S.updated hr hi.1 hi.2 (S.isSet r hi)
    have hn : S.neighbor r i = r' := by simp [Ranks.neighbor, hranks]
    refine ⟨r', hranks, hr', ?_⟩
    have h := Ranks.existsUnique_target hr hi hy
    rwa [hn] at h
  · rw [← Ranks.sum_interior, ← Finset.sum_add_distrib]
    refine Finset.sum_congr rfl fun r hr => ?_
    rw [← Finset.sum_add_distrib]
    exact Finset.sum_congr rfl fun x hx =>
      hafter.interior ht (Finset.mem_range.mp hr) (mem_interiorCells.mp hx)

namespace Ranks

variable {d : ℕ} (S : Ranks d)

theorem subset_of_append {α : Type*} {l l' l₁ l₂ : List α} {t : α} (ht : t ∉ l) (h : l ++ l' = l₁ ++ t :: l₂) :
    l ⊆ l₁ := by
  rcases List.append_eq_append_iff.mp h with ⟨c, rfl, -⟩ | ⟨c, rfl, hc⟩
  · exact List.subset_append_left _ _
  · cases c with
    | nil => simp
    | cons a c =>
      obtain ⟨rfl, -⟩ := List.cons.inj hc
      exact absurd (by simp) ht

/-- First all bashes, then all inserts. -/
theorem exists_schedule : ∃ tasks, S.Schedule tasks := by
  let pairs := List.range S.grid.size ×ˢ List.range' 1 (numberOfExchanges (d + 2) - 1)
  have hpairs : ∀ r i, (r, i) ∈ pairs ↔ r < S.grid.size ∧ 1 ≤ i ∧ i < numberOfExchanges (d + 2) := fun r i => by
    have : 0 < numberOfExchanges (d + 2) := by simp [numberOfExchanges]
    rw [List.mem_product, List.mem_range, List.mem_range'_1]
    omega
  have hnd : pairs.Nodup := List.nodup_range.product List.nodup_range'
  let bashes := (pairs.filter fun p => HaloExchange.hasSendExchange (S.comm p.1) (S.buffer p.1) p.2).map
    fun p => Task.bashField p.1 p.2
  let inserts := (pairs.filter fun p => HaloExchange.hasReceiveExchange (S.comm p.1) (S.buffer p.1) p.2).map
    fun p => Task.insertField p.1 p.2
  have hbash : ∀ r ex, Task.bashField r ex ∈ bashes ++ inserts ↔ r < S.grid.size ∧
      (1 ≤ ex ∧ ex < numberOfExchanges (d + 2)) ∧ HaloExchange.hasSendExchange (S.comm r) (S.buffer r) ex = true :=
    fun r ex => by simp [bashes, inserts, hpairs, and_assoc]
  have hinsert : ∀ r i, Task.insertField r i ∈ bashes ++ inserts ↔ r < S.grid.size ∧
      (1 ≤ i ∧ i < numberOfExchanges (d + 2)) ∧ HaloExchange.hasReceiveExchange (S.comm r) (S.buffer r) i = true :=
    fun r i => by simp [bashes, inserts, hpairs, and_assoc]
  refine ⟨bashes ++ inserts, List.nodup_append.mpr ⟨?_, ?_, ?_⟩, hbash, hinsert, fun r i l₁ l₂ heq => ?_⟩
  · exact (hnd.filter _).map fun p q h => by cases p; cases q; simpa using h
  · exact (hnd.filter _).map fun p q h => by cases p; cases q; simpa using h
  · intro a ha b hb hab
    obtain ⟨p, -, rfl⟩ := List.mem_map.mp ha
    obtain ⟨q, -, rfl⟩ := List.mem_map.mp hb
    cases hab
  · obtain ⟨hr, hi, hhas⟩ := (hinsert r i).mp (by simp [heq])
    have hsend : Task.bashField (S.neighbor r i) (Mask.mirrored i) ∈ bashes ++ inserts := by
      obtain ⟨hn, -, -⟩ := S.neighbor_spec hr hi
      refine (hbash _ _).mpr ⟨hn, (S.mirrored_range hi).1, (S.hasSendExchange_iff hn hi).mpr ?_⟩
      rw [S.size_neighbor hr hi]
      exact (S.hasReceiveExchange_iff hr hi).mp hhas
    have hsub := subset_of_append (by simp [bashes]) heq
    rw [← neighbor]
    exact hsub (by simpa [inserts] using hsend)

def twoRanks : ProcessGrid 2 := ⟨![2, 1], ![true, true], HaloExchange.rowOfTwo.dims_pos⟩

def smallMapping : MappingDescription 2 := ⟨fun _ => 3, 1, 1⟩

def smallBuffer : Except String (UniquTag × GridBuffer 2) :=
  addExchangeBuffers (exchangeSize smallMapping (fun _ => 2) (fun _ => 1) (fun _ => 2)) 2
    (∅, .init (smallMapping.getGridLayout fun _ => 2))

theorem smallBuffer_returns : smallBuffer.toOption.isSome = true := by
  decide +kernel

end Ranks

theorem current_conserved_twoRanks : ∃ (S : Ranks 0) (tasks : List Task)
    (threads : Task → List (DataSpace 2 × DataSpace 2)), S.grid = Ranks.twoRanks ∧ S.Schedule tasks ∧
    (∀ t ∈ tasks, ∀ k, S.arguments t = some k → Launched k (threads t)) ∧
    ∀ J : ℕ → DataSpace 2 → ℤ, ∃ s, S.run threads tasks ⟨J, fun _ _ => none⟩ = some s ∧
      ∑ r ∈ Finset.range 2, ∑ x ∈ interiorCells (S.layout r), s.fieldJ r x =
        (∑ r ∈ Finset.range 2, ∑ x ∈ interiorCells (S.layout r), J r x) +
          ∑ r ∈ Finset.range 2, ∑ y ∈ S.marginCells r, J r y := by
  have hret := Ranks.smallBuffer_returns
  cases hrun : Ranks.smallBuffer with
  | error e => simp [hrun, Except.toOption] at hret
  | ok st =>
    choose comm hcomm _ using fun r => Communicator.afterSlides_spec (d := 0) (by decide) Ranks.twoRanks r 0
    let S : Ranks 0 :=
      { grid := Ranks.twoRanks
        comm := comm
        buffer := fun _ => st.2
        superCells := fun _ _ => 3
        superCellSize := fun _ => 2
        originGuard := fun _ => 1
        endGuard := fun _ => 2
        slides := 0
        dim := by decide
        periodic := by decide
        comm_eq := hcomm
        size_pos := by decide
        three_superCells := fun _ _ => le_rfl
        margins := by decide
        registered := fun _ _ => ⟨2, ∅, st.1, hrun⟩ }
    obtain ⟨tasks, htasks⟩ := S.exists_schedule
    choose threads hthreads using fun k : KernelArguments 2 => exists_launched k
    let order : Task → List (DataSpace 2 × DataSpace 2) := fun t => ((S.arguments t).map threads).getD []
    have horder : ∀ t ∈ tasks, ∀ k, S.arguments t = some k → Launched k (order t) := fun t _ k hk => by
      simp only [order, hk, Option.map_some, Option.getD_some]
      exact hthreads k
    refine ⟨S, tasks, order, rfl, htasks, horder, fun J => ?_⟩
    obtain ⟨s, hs, -, -, -, -, hsum⟩ := current_conserved S J htasks horder
    exact ⟨s, hs, hsum⟩

end FieldJ

end PIConGPU
