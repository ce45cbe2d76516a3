import PIConGPU.GuardExchanges
import PIConGPU.MessagePassing

/-!
# The exchange of the guard between all ranks

In a communication round a rank sends the border in all directions with a neighbor and receives its
guard from there. The messages of a round arrive in any order.
-/
namespace PIConGPU

open MessagePassing GridBuffer

namespace Mask

def inter (m n : Mask) : Mask := ⟨m.bitMask &&& n.bitMask⟩

@[simp] theorem isSet_inter (m n : Mask) (ex : ℕ) : (m.inter n).isSet ex = (m.isSet ex && n.isSet ex) := by
  simp [isSet_eq_testBit, inter]

end Mask

namespace HaloExchange

section Communication

variable {D : ℕ} (comm : Communicator D) (buffer : GridBuffer D)

def hasSendExchange (ex : ℕ) : Bool :=
  (buffer.sendExchanges ex).isSome && (comm.communicationMask.inter buffer.sendMask).isSet ex

def hasReceiveExchange (ex : ℕ) : Bool :=
  (buffer.receiveExchanges ex).isSome && (comm.communicationMask.inter buffer.receiveMask).isSet ex

def receiveDirections : List ℕ := (List.range buffer.maxExchange).filter (hasReceiveExchange comm buffer)

def sendDirections : List ℕ :=
  ((List.range buffer.maxExchange).filterMap fun i => (Mask.getMirroredExchangeType i).toOption).filter
    (hasSendExchange comm buffer)

/-- Added to the tag of an exchange. -/
def gridExchangeTag : ℕ := 5

def startSend (rank ex : ℕ) : Post ℕ (DataSpace D) :=
  match buffer.sendExchanges ex with
  | some e => ⟨rank, (comm.ranks ex).toNat, gridExchangeTag + e.communicationTag, e.cells⟩
  | none => ⟨rank, 0, 0, []⟩

def startReceive (rank ex : ℕ) : Post ℕ (DataSpace D) :=
  match buffer.receiveExchanges ex with
  | some e => ⟨rank, (comm.ranks ex).toNat, gridExchangeTag + e.communicationTag, e.cells⟩
  | none => ⟨rank, 0, 0, []⟩

end Communication

section Ranks

variable {d : ℕ} (g : ProcessGrid (d + 2)) (comm : ℕ → Communicator (d + 2)) (buffer : ℕ → GridBuffer (d + 2))

def sends : Finset (ℕ × ℕ) :=
  (Finset.range g.size).biUnion fun r => ((sendDirections (comm r) (buffer r)).map (Prod.mk r)).toFinset

def receives : Finset (ℕ × ℕ) :=
  (Finset.range g.size).biUnion fun r => ((receiveDirections (comm r) (buffer r)).map (Prod.mk r)).toFinset

def send (p : ℕ × ℕ) : Post ℕ (DataSpace (d + 2)) := startSend (comm p.1) (buffer p.1) p.1 p.2

def receive (p : ℕ × ℕ) : Post ℕ (DataSpace (d + 2)) := startReceive (comm p.1) (buffer p.1) p.1 p.2

theorem send_owner (p : ℕ × ℕ) : (send comm buffer p).owner = p.1 := by
  unfold send startSend
  split <;> rfl

theorem receive_owner (p : ℕ × ℕ) : (receive comm buffer p).owner = p.1 := by
  unfold receive startReceive
  split <;> rfl

def partner (p : ℕ × ℕ) : ℕ × ℕ := (((comm p.1).ranks p.2).toNat, Mask.mirrored p.2)

variable (size : Fin (d + 2) → ℤ → ℤ) (guard : DataSpace (d + 2))

def layout (r : ℕ) : GridLayout (d + 2) := ⟨fun j => size j ((comm r).coordinates j), guard⟩

def globalCell (r : ℕ) (x : DataSpace (d + 2)) : DataSpace (d + 2) := fun j =>
  (∑ e ∈ Finset.range ((comm r).coordinates j).toNat, size j e) + (x j - guard j)

def globalSize : DataSpace (d + 2) := fun j => ∑ e ∈ Finset.range (g.dims j), size j e

/-- All ranks registered the exchanges of a field after a number of slides. -/
structure Setup (k : ℕ) (originGuard endGuard : DataSpace (d + 2)) (communicationTag : ℕ) : Prop where
  comm_eq : ∀ r, Communicator.afterSlides g r k = some (comm r)
  size_nonneg : ∀ j c, 0 ≤ size j c
  margins : ∀ j, (0 ≤ originGuard j ∧ originGuard j ≤ guard j) ∧ 0 ≤ endGuard j ∧ endGuard j ≤ guard j
  registered : ∀ r < g.size, ∃ tags tags', addGuardExchanges originGuard endGuard communicationTag
    (tags, .init (layout comm size guard r)) = .ok (tags', buffer r)

end Ranks

section Pairing

variable {d : ℕ} {g : ProcessGrid (d + 2)} {comm : ℕ → Communicator (d + 2)} {buffer : ℕ → GridBuffer (d + 2)}
  {size : Fin (d + 2) → ℤ → ℤ} {guard : DataSpace (d + 2)} {k : ℕ} {originGuard endGuard : DataSpace (d + 2)}
  {communicationTag : ℕ}

theorem uniqCommunicationTag_mod {ex : ℕ} (hex : ex < 32) : uniqCommunicationTag communicationTag ex % 32 = ex := by
  rw [uniqCommunicationTag, ← Nat.shiftLeft_add_eq_or_of_lt (show ex < 2^5 by omega), Nat.shiftLeft_eq]
  omega

theorem Setup.updated (h : Setup g comm buffer size guard k originGuard endGuard communicationTag) (hd : d ≤ 1)
    (r : ℕ) : Communicator.Updated g r (Communicator.slideOffset g k) (comm r) := by
  obtain ⟨c, hc, hu⟩ := Communicator.afterSlides_spec hd g r k
  obtain rfl := Option.some.inj (hc.symm.trans (h.comm_eq r))
  exact hu

theorem Setup.registered_all (h : Setup g comm buffer size guard k originGuard endGuard communicationTag)
    (hd : d ≤ 1) {r : ℕ} (hr : r < g.size) :
    Registered originGuard endGuard (layout comm size guard r) communicationTag
      {i | 1 ≤ i ∧ i < numberOfExchanges (d + 2)} (buffer r) := by
  obtain ⟨tags, tags', hreg⟩ := h.registered r hr
  exact registered_addGuardExchanges (by omega) hreg

theorem Setup.mem_receives (h : Setup g comm buffer size guard k originGuard endGuard communicationTag)
    (hd : d ≤ 1) {r i : ℕ} :
    (r, i) ∈ receives g comm buffer ↔ r < g.size ∧ (1 ≤ i ∧ i < numberOfExchanges (d + 2)) ∧
      (comm r).communicationMask.isSet i = true := by
  simp only [receives, Finset.mem_biUnion, Finset.mem_range, List.mem_toFinset, List.mem_map, Prod.mk.injEq,
    receiveDirections, List.mem_filter, List.mem_range, hasReceiveExchange, Bool.and_eq_true, Mask.isSet_inter]
  constructor
  · rintro ⟨_, hr, _, ⟨-, -, hset, hmask⟩, rfl, rfl⟩
    exact ⟨hr, ((h.registered_all hd hr).receiveMask _).mp hmask, hset⟩
  · rintro ⟨hr, hi, hset⟩
    have hreg := h.registered_all hd hr
    obtain ⟨re, hre, -⟩ := hreg.receive i hi
    exact ⟨r, hr, i, ⟨(hreg.bound i hi).1, by simp [hre], hset, (hreg.receiveMask i).mpr hi⟩, rfl, rfl⟩

theorem Setup.mem_sends (h : Setup g comm buffer size guard k originGuard endGuard communicationTag)
    (hd : d ≤ 1) {r ex : ℕ} :
    (r, ex) ∈ sends g comm buffer ↔ r < g.size ∧ (1 ≤ ex ∧ ex < numberOfExchanges (d + 2)) ∧
      (comm r).communicationMask.isSet ex = true := by
  have h27 := Communicator.numberOfExchanges_le hd
  have hD : d + 2 = 2 ∨ d + 2 = 3 := by omega
  simp only [sends, Finset.mem_biUnion, Finset.mem_range, List.mem_toFinset, List.mem_map, Prod.mk.injEq,
    sendDirections, List.mem_filter, List.mem_filterMap, List.mem_range, hasSendExchange, Bool.and_eq_true,
    Mask.isSet_inter]
  constructor
  · rintro ⟨_, hr, _, ⟨-, -, hset, hmask⟩, rfl, rfl⟩
    obtain ⟨⟨hex, hex'⟩, -, hm⟩ := ((h.registered_all hd hr).sendMask _).mp hmask
    have hlt := Mask.mirrored_lt hD hm
    rw [Mask.mirrored_mirrored hex'] at hlt
    exact ⟨hr, ⟨hex, hlt⟩, hset⟩
  · rintro ⟨hr, ⟨hex, hex'⟩, hset⟩
    have hreg := h.registered_all hd hr
    have hm := Mask.mirrored_pos hex (show ex < 27 by omega)
    have hm' := Mask.mirrored_lt hD hex'
    have hmm := Mask.mirrored_mirrored (show ex < 27 by omega)
    obtain ⟨se, hse, -⟩ := hreg.send (Mask.mirrored ex) ⟨hm, hm'⟩
    rw [hmm] at hse
    refine ⟨r, hr, ex, ⟨⟨Mask.mirrored ex, (hreg.bound _ ⟨hm, hm'⟩).1, ?_⟩, by simp [hse], hset,
      (hreg.sendMask ex).mpr ⟨⟨hex, by omega⟩, hm, hm'⟩⟩, rfl, rfl⟩
    rw [Mask.getMirroredExchangeType_eq hm (by omega), hmm]
    rfl

/-- Rank `r` receives from direction `i` what rank `r'` sends in the mirrored direction. -/
structure Link (g : ProcessGrid (d + 2)) (comm : ℕ → Communicator (d + 2)) (buffer : ℕ → GridBuffer (d + 2))
    (size : Fin (d + 2) → ℤ → ℤ) (guard originGuard endGuard : DataSpace (d + 2)) (communicationTag r i r' : ℕ)
    (re se : ExchangeIntern (d + 2)) : Prop where
  lt : r' < g.size
  ranks : (comm r).ranks i = r'
  coordinates : (comm r').coordinates = g.wrap ((comm r).coordinates + getRelativeDirections (d + 2) i)
  back : (comm r').communicationMask.isSet (Mask.mirrored i) = true
  ranks_back : (comm r').ranks (Mask.mirrored i) = r
  receive : (buffer r).receiveExchanges i = some re
  send : (buffer r').sendExchanges (Mask.mirrored i) = some se
  ofBuffer_receive : ExchangeIntern.ofBuffer (layout comm size guard r) (guardingCells originGuard endGuard i) i
    (uniqCommunicationTag communicationTag (Mask.mirrored i)) .GUARD = .ok re
  ofBuffer_send : ExchangeIntern.ofBuffer (layout comm size guard r') (guardingCells originGuard endGuard i)
    (Mask.mirrored i) (uniqCommunicationTag communicationTag (Mask.mirrored i)) .BORDER = .ok se

theorem Setup.exists_link (h : Setup g comm buffer size guard k originGuard endGuard communicationTag)
    (hd : d ≤ 1) {r i : ℕ} (hr : r < g.size) (hi : 1 ≤ i ∧ i < numberOfExchanges (d + 2))
    (hset : (comm r).communicationMask.isSet i = true) :
    ∃ r' re se, Link g comm buffer size guard originGuard endGuard communicationTag r i r' re se := by
  obtain ⟨r', hr', hranks, hcoords, hback, hranks'⟩ :=
    Communicator.Updated.neighbor hd (h.updated hd) hr hi.1 hi.2 hset
  obtain ⟨re, hre, hre'⟩ := (h.registered_all hd hr).receive i hi
  obtain ⟨se, hse, hse'⟩ := (h.registered_all hd hr').send i hi
  exact ⟨r', re, se, hr', hranks, hcoords, hback, hranks', hre, hse, hre', hse'⟩

section Links

variable {r i r' : ℕ} {re se : ExchangeIntern (d + 2)}
  (l : Link g comm buffer size guard originGuard endGuard communicationTag r i r' re se)

include l

theorem Link.partner_eq : partner comm (r, i) = (r', Mask.mirrored i) := by
  simp [partner, l.ranks]

theorem Link.receive_eq : HaloExchange.receive comm buffer (r, i) =
    ⟨r, r', gridExchangeTag + uniqCommunicationTag communicationTag (Mask.mirrored i), re.cells⟩ := by
  have htag := ofBuffer_tag l.ofBuffer_receive
  simp [HaloExchange.receive, startReceive, l.receive, l.ranks, htag]

theorem Link.send_eq : HaloExchange.send comm buffer (partner comm (r, i)) =
    ⟨r', r, gridExchangeTag + uniqCommunicationTag communicationTag (Mask.mirrored i), se.cells⟩ := by
  have htag := ofBuffer_tag l.ofBuffer_send
  rw [l.partner_eq]
  simp [HaloExchange.send, startSend, l.send, l.ranks_back, htag]

theorem Link.dataSpace_eq (hin : g.Inside (comm r).coordinates) (j : Fin (d + 2))
    (hj : getRelativeDirections (d + 2) i j = 0) :
    (layout comm size guard r').dataSpace j = (layout comm size guard r).dataSpace j := by
  have hw : (comm r').coordinates j = (comm r).coordinates j := by
    rw [l.coordinates, ProcessGrid.wrap, Pi.add_apply, hj, add_zero]
    exact Int.emod_eq_of_lt (hin j).1 (hin j).2
  simp [layout, hw]

theorem Link.size_eq (hd : d ≤ 1) (hi : 1 ≤ i ∧ i < numberOfExchanges (d + 2))
    (hin : g.Inside (comm r).coordinates) : se.size = re.size := by
  have h27 := Communicator.numberOfExchanges_le hd
  exact exchange_size_eq (by omega) hi.1 (by omega) l.ofBuffer_receive l.ofBuffer_send (l.dataSpace_eq hin)

end Links

/-- The next position of an axis begins where the position ends, up to the extent of the axis. -/
theorem sum_next {n : ℕ} (f : ℤ → ℤ) {c c' : ℤ} (hc : 0 ≤ c ∧ c < n) (hc' : c' = (c + 1) % n) :
    (∑ e ∈ Finset.range c'.toNat, f e) ≡ (∑ e ∈ Finset.range c.toNat, f e) + f c
      [ZMOD ∑ e ∈ Finset.range n, f e] := by
  have hsucc : (∑ e ∈ Finset.range c.toNat, f e) + f c = ∑ e ∈ Finset.range (c.toNat + 1), f e := by
    rw [Finset.sum_range_succ, Int.toNat_of_nonneg hc.1]
  rw [hsucc]
  by_cases hlast : c + 1 < n
  · have hnat : c'.toNat = c.toNat + 1 := by
      rw [hc', Int.emod_eq_of_lt (by omega) hlast]
      omega
    rw [hnat]
  · have hn : c + 1 = n := by omega
    have hnat : c.toNat + 1 = n := by omega
    have hzero : c' = 0 := by rw [hc', hn, Int.emod_self]
    rw [hnat, hzero]
    exact (Int.modEq_zero_iff_dvd.mpr dvd_rfl).symm

/-- A cell shifted by the extent of the rank it comes from or goes to is the same cell of the grid. -/
theorem globalCell_modEq {r i r' : ℕ} (hcoords : (comm r').coordinates =
      g.wrap ((comm r).coordinates + getRelativeDirections (d + 2) i))
    (hin : g.Inside (comm r).coordinates) {x x' : DataSpace (d + 2)} (j : Fin (d + 2))
    (hcell : x' j = x j + (if getRelativeDirections (d + 2) i j = 1 then -size j ((comm r).coordinates j)
      else if getRelativeDirections (d + 2) i j = -1 then size j ((comm r').coordinates j) else 0)) :
    globalCell comm size guard r' x' j ≡ globalCell comm size guard r x j [ZMOD globalSize g size j] := by
  have hcoord : (comm r').coordinates j =
      ((comm r).coordinates j + getRelativeDirections (d + 2) i j) % g.dims j := by
    rw [hcoords]
    rfl
  have hpos := g.dims_pos j
  simp only [globalCell, globalSize]
  rcases getRelativeDirections_cases (d + 2) i j with hj | hj | hj
  · rw [hj] at hcell hcoord
    norm_num at hcell
    have hin' : 0 ≤ (comm r').coordinates j ∧ (comm r').coordinates j < g.dims j := by
      rw [hcoord]
      exact ⟨Int.emod_nonneg _ (by omega), Int.emod_lt_of_pos _ (by omega)⟩
    have hback : (comm r).coordinates j = ((comm r').coordinates j + 1) % g.dims j := by
      rw [hcoord, Int.emod_add_emod, neg_add_cancel_right, Int.emod_eq_of_lt (hin j).1 (hin j).2]
    have hsum := (sum_next (size j) hin' hback).symm
    have hadd := hsum.add_right (x j - guard j)
    convert hadd using 1
    rw [hcell]
    ring
  · rw [hj] at hcell hcoord
    norm_num at hcell
    rw [hcoord, add_zero, Int.emod_eq_of_lt (hin j).1 (hin j).2, hcell]
  · rw [hj] at hcell hcoord
    norm_num at hcell
    have hadd := (sum_next (size j) (hin j) hcoord).add_right (x' j - guard j)
    convert hadd using 1
    rw [hcell]
    ring

/-- A received cell is the same cell of the grid as the sent one, up to the periodic boundaries. -/
theorem Link.globalCell_eq {r i r' : ℕ} {re se : ExchangeIntern (d + 2)}
    (l : Link g comm buffer size guard originGuard endGuard communicationTag r i r' re se) (hd : d ≤ 1)
    (hi : 1 ≤ i ∧ i < numberOfExchanges (d + 2)) (hin : g.Inside (comm r).coordinates) {n : ℕ}
    {x x' : DataSpace (d + 2)} (hx : re.cells[n]? = some x) (hx' : se.cells[n]? = some x') (j : Fin (d + 2)) :
    globalCell comm size guard r' x' j ≡ globalCell comm size guard r x j [ZMOD globalSize g size j] := by
  have h27 := Communicator.numberOfExchanges_le hd
  exact globalCell_modEq l.coordinates hin j
    (exchange_cells (by omega) hi.1 (by omega) l.ofBuffer_receive l.ofBuffer_send rfl (l.dataSpace_eq hin) hx hx' j)

theorem Setup.inside (h : Setup g comm buffer size guard k originGuard endGuard communicationTag) (hd : d ≤ 1)
    {r : ℕ} (hr : r < g.size) : g.Inside (comm r).coordinates := by
  rw [(h.updated hd r).coordinates_eq]
  exact Communicator.rotatedCoords_inside hr _

theorem Setup.paired (h : Setup g comm buffer size guard k originGuard endGuard communicationTag) (hd : d ≤ 1) :
    Paired (send comm buffer) (receive comm buffer) (sends g comm buffer) (receives g comm buffer) (partner comm) := by
  have h27 := Communicator.numberOfExchanges_le hd
  have hD : d + 2 = 2 ∨ d + 2 = 3 := by omega
  have hlink : ∀ j ∈ receives g comm buffer, ∃ r' re se,
      Link g comm buffer size guard originGuard endGuard communicationTag j.1 j.2 r' re se := fun j hj => by
    obtain ⟨hr, hi, hset⟩ := (h.mem_receives hd).mp hj
    exact h.exists_link hd hr hi hset
  refine ⟨?_, ?_, ?_, ?_, ?_, ?_, ?_, ?_, ?_, ?_⟩
  · rintro ⟨r, i⟩ hj
    obtain ⟨hr, hi, hset⟩ := (h.mem_receives hd).mp hj
    obtain ⟨r', re, se, l⟩ := hlink _ hj
    rw [l.partner_eq]
    exact (h.mem_sends hd).mpr ⟨l.lt, ⟨Mask.mirrored_pos hi.1 (by omega), Mask.mirrored_lt hD hi.2⟩, l.back⟩
  · rintro ⟨r, ex⟩ hex
    obtain ⟨hr, hex, hset⟩ := (h.mem_sends hd).mp hex
    obtain ⟨r', re, se, l⟩ := h.exists_link hd hr hex hset
    have hmm := Mask.mirrored_mirrored (show ex < 27 by omega)
    refine ⟨(r', Mask.mirrored ex), (h.mem_receives hd).mpr
      ⟨l.lt, ⟨Mask.mirrored_pos hex.1 (by omega), Mask.mirrored_lt hD hex.2⟩, l.back⟩, ?_⟩
    simp [partner, l.ranks_back, hmm]
  · rintro ⟨r, i⟩ hj ⟨r₂, i₂⟩ hj₂ heq
    obtain ⟨-, hi, -⟩ := (h.mem_receives hd).mp hj
    obtain ⟨-, hi₂, -⟩ := (h.mem_receives hd).mp hj₂
    obtain ⟨r', re, se, l⟩ := hlink _ hj
    obtain ⟨r₂', re₂, se₂, l₂⟩ := hlink _ hj₂
    rw [l.partner_eq, l₂.partner_eq, Prod.mk.injEq] at heq
    obtain ⟨rfl, hm⟩ := heq
    have hii : i = i₂ := by
      rw [← Mask.mirrored_mirrored (show i < 27 by omega), hm, Mask.mirrored_mirrored (by omega)]
    subst hii
    have hrr := l.ranks_back.symm.trans l₂.ranks_back
    simp only [Nat.cast_inj] at hrr
    rw [hrr]
  · rintro ⟨r, i⟩ hj
    obtain ⟨r', re, se, l⟩ := hlink _ hj
    rw [l.send_eq, l.receive_eq]
  · rintro ⟨r, i⟩ hj
    obtain ⟨r', re, se, l⟩ := hlink _ hj
    rw [l.send_eq, l.receive_eq]
  · rintro ⟨r, i⟩ hj
    obtain ⟨r', re, se, l⟩ := hlink _ hj
    rw [l.send_eq, l.receive_eq]
  · rintro ⟨r, i⟩ hj ⟨r₂, i₂⟩ hj₂ howner - htag
    obtain ⟨-, hi, -⟩ := (h.mem_receives hd).mp hj
    obtain ⟨-, hi₂, -⟩ := (h.mem_receives hd).mp hj₂
    obtain ⟨r', re, se, l⟩ := hlink _ hj
    obtain ⟨r₂', re₂, se₂, l₂⟩ := hlink _ hj₂
    rw [l.receive_eq, l₂.receive_eq] at howner htag
    have hm := congrArg (· % 32) (Nat.add_left_cancel htag)
    have hlt : Mask.mirrored i < 27 := Mask.mirrored_lt (Or.inr rfl) (show i < 27 by omega)
    have hlt₂ : Mask.mirrored i₂ < 27 := Mask.mirrored_lt (Or.inr rfl) (show i₂ < 27 by omega)
    simp only [uniqCommunicationTag_mod (show Mask.mirrored i < 32 by omega),
      uniqCommunicationTag_mod (show Mask.mirrored i₂ < 32 by omega)] at hm
    have hii : i = i₂ := by
      rw [← Mask.mirrored_mirrored (show i < 27 by omega), hm, Mask.mirrored_mirrored (by omega)]
    exact Prod.ext howner hii
  · rintro ⟨r, i⟩ hj
    obtain ⟨hr, hi, -⟩ := (h.mem_receives hd).mp hj
    obtain ⟨r', re, se, l⟩ := hlink _ hj
    rw [l.send_eq, l.receive_eq]
    exact ExchangeIntern.length_cells (l.size_eq hd hi (h.inside hd hr))
  · rintro ⟨r, i⟩ hj
    obtain ⟨r', re, se, l⟩ := hlink _ hj
    rw [l.receive_eq]
    exact re.nodup_cells
  · rintro ⟨r, i⟩ hj ⟨r₂, i₂⟩ hj₂ hne howner
    obtain ⟨-, hi, -⟩ := (h.mem_receives hd).mp hj
    obtain ⟨-, hi₂, -⟩ := (h.mem_receives hd).mp hj₂
    obtain ⟨r', re, se, l⟩ := hlink _ hj
    obtain ⟨r₂', re₂, se₂, l₂⟩ := hlink _ hj₂
    rw [l.receive_eq, l₂.receive_eq] at howner ⊢
    dsimp only at howner
    subst howner
    intro x hx hx₂
    have hx := (mem_receive_cells (by omega) hi.1 (by omega) l.ofBuffer_receive).mp hx
    have hx₂ := (mem_receive_cells (by omega) hi₂.1 (by omega) l₂.ofBuffer_receive).mp hx₂
    have hii := InHalo.direction_unique (fun j => h.size_nonneg j _) hi.2 hi₂.2 hx hx₂
    exact hne (by rw [hii])

end Pairing

section Rounds

variable {d : ℕ} {g : ProcessGrid (d + 2)} {comm : ℕ → Communicator (d + 2)} {buffer : ℕ → GridBuffer (d + 2)}
  {size : Fin (d + 2) → ℤ → ℤ} {guard : DataSpace (d + 2)} {k : ℕ} {originGuard endGuard : DataSpace (d + 2)}
  {communicationTag : ℕ} {V : Type*}

/-- The distance to the local cells is at most the extent of the neighbor in direction `i`. -/
def WithinNeighbor (layout layout' : GridLayout (d + 2)) (i : ℕ) (x : DataSpace (d + 2)) : Prop := ∀ j,
  (getRelativeDirections (d + 2) i j = 1 → x j < layout.guard j + layout.dataSpace j + layout'.dataSpace j) ∧
    (getRelativeDirections (d + 2) i j = -1 → layout.guard j - layout'.dataSpace j ≤ x j)

theorem Setup.untouched_of_interior (h : Setup g comm buffer size guard k originGuard endGuard communicationTag)
    (hd : d ≤ 1) {r : ℕ} {x : DataSpace (d + 2)} (hx : Interior (layout comm size guard r) x) :
    Untouched (receive comm buffer) (receives g comm buffer) r x := by
  have h27 := Communicator.numberOfExchanges_le hd
  rintro ⟨r₂, i⟩ hj howner hmem
  obtain ⟨hr, hi, hset⟩ := (h.mem_receives hd).mp hj
  obtain ⟨r', re, se, l⟩ := h.exists_link hd hr hi hset
  rw [l.receive_eq] at howner hmem
  dsimp only at howner
  subst howner
  exact not_inHalo_of_interior hi.1 hi.2 hx
    ((mem_receive_cells (by omega) hi.1 (by omega) l.ofBuffer_receive).mp hmem)

/-- A cell of the guard in a direction with a neighbor, and the cell it is copied from. -/
theorem Setup.exists_source (h : Setup g comm buffer size guard k originGuard endGuard communicationTag)
    (hd : d ≤ 1) {r i : ℕ} (hr : r < g.size) (hi : 1 ≤ i ∧ i < numberOfExchanges (d + 2)) {r' : ℕ}
    {re se : ExchangeIntern (d + 2)}
    (l : Link g comm buffer size guard originGuard endGuard communicationTag r i r' re se) {x : DataSpace (d + 2)}
    (hx : InHalo (layout comm size guard r) originGuard endGuard i x) :
    ∃ (n : ℕ) (x' : DataSpace (d + 2)), re.cells[n]? = some x ∧ se.cells[n]? = some x' ∧
      (WithinNeighbor (layout comm size guard r) (layout comm size guard r') i x →
        Interior (layout comm size guard r') x') := by
  have h27 := Communicator.numberOfExchanges_le hd
  have hin := h.inside hd hr
  obtain ⟨n, hn⟩ := List.mem_iff_getElem?.mp
    ((mem_receive_cells (by omega) hi.1 (by omega) l.ofBuffer_receive).mpr hx)
  have hlt : n < se.cells.length := by
    rw [ExchangeIntern.length_cells (l.size_eq hd hi hin)]
    exact (List.getElem?_eq_some_iff.mp hn).1
  refine ⟨n, se.cells[n], hn, List.getElem?_eq_getElem hlt, fun hwithin j => ?_⟩
  have hcell := exchange_cells (by omega) hi.1 (by omega) l.ofBuffer_receive l.ofBuffer_send rfl (l.dataSpace_eq hin)
    hn (List.getElem?_eq_getElem hlt) j
  have h1 := hx j
  have h2 := hwithin j
  have h3 := l.dataSpace_eq hin j
  rw [hcell]
  simp only [layout] at h1 h2 h3 ⊢
  rcases getRelativeDirections_cases (d + 2) i j with hj | hj | hj <;> rw [hj] at h1 h2 h3 ⊢ <;>
    norm_num at h1 h2 h3 ⊢ <;> omega

/-- A round of exchanges: both sides of an exchange are the same cells of the grid, messages are not mixed up,
and at the end each guard cell with a neighbor that is wide enough holds the value of its cell there. -/
theorem guard_exchange (hd : d ≤ 1) (h : Setup g comm buffer size guard k originGuard endGuard communicationTag) :
    (∀ r < g.size, ∀ i, 1 ≤ i ∧ i < numberOfExchanges (d + 2) → (comm r).communicationMask.isSet i = true →
      ∃ r' re se, Link g comm buffer size guard originGuard endGuard communicationTag r i r' re se ∧
        se.size = re.size ∧ (∀ x ∈ re.cells, InBuffer (layout comm size guard r) x) ∧
        (∀ x ∈ se.cells, InBuffer (layout comm size guard r') x) ∧
        ∀ (n : ℕ) x x', re.cells[n]? = some x → se.cells[n]? = some x' → ∀ j,
          globalCell comm size guard r' x' j ≡ globalCell comm size guard r x j [ZMOD globalSize g size j]) ∧
    (∀ r < g.size, ∀ i j re re', 1 ≤ i ∧ i < numberOfExchanges (d + 2) → 1 ≤ j ∧ j < numberOfExchanges (d + 2) →
      i ≠ j → (buffer r).receiveExchanges i = some re → (buffer r).receiveExchanges j = some re' →
        re.cells.Disjoint re'.cells) ∧
    (∀ p ∈ sends g comm buffer, ∀ q ∈ sends g comm buffer,
      (send comm buffer p).owner = (send comm buffer q).owner → (send comm buffer p).peer = (send comm buffer q).peer →
        (send comm buffer p).tag = (send comm buffer q).tag → p = q) ∧
    ∀ mem₀ : ℕ → DataSpace (d + 2) → V,
      let start : State ℕ (DataSpace (d + 2)) V (ℕ × ℕ) (ℕ × ℕ) :=
        ⟨mem₀, [], sends g comm buffer, receives g comm buffer⟩
      (∃ s, Run (send comm buffer) (receive comm buffer) start s ∧
        ∀ s', ¬Step (send comm buffer) (receive comm buffer) s s') ∧
      ∀ s, Run (send comm buffer) (receive comm buffer) start s →
        (∀ s', ¬Step (send comm buffer) (receive comm buffer) s s') →
        (s.network = [] ∧ s.unsent = ∅ ∧ s.awaited = ∅) ∧
        (∀ r < g.size, ∀ i, 1 ≤ i ∧ i < numberOfExchanges (d + 2) → (comm r).communicationMask.isSet i = true →
          ∃ r' : ℕ, (comm r).ranks i = r' ∧ ∀ x, InHalo (layout comm size guard r) originGuard endGuard i x →
            WithinNeighbor (layout comm size guard r) (layout comm size guard r') i x →
            ∃ x', Interior (layout comm size guard r') x' ∧
              (∀ j, globalCell comm size guard r' x' j ≡ globalCell comm size guard r x j [ZMOD globalSize g size j]) ∧
              s.mem r x = mem₀ r' x') ∧
        ∀ r x, (r < g.size → ∀ i, 1 ≤ i ∧ i < numberOfExchanges (d + 2) →
          (comm r).communicationMask.isSet i = true →
            ¬InHalo (layout comm size guard r) originGuard endGuard i x) → s.mem r x = mem₀ r x := by
  have h27 := Communicator.numberOfExchanges_le hd
  have hp := h.paired hd
  have hguard : ∀ j, 0 ≤ guard j ∧ originGuard j ≤ guard j ∧ endGuard j ≤ guard j := fun j => by
    have := h.margins j
    omega
  refine ⟨fun r hr i hi hset => ?_, fun r hr i j re re' hi hj hij hre hre' => ?_, fun p hp₁ q hq₁ h1 h2 h3 => ?_,
    fun mem₀ => ⟨Run.exists_final _, fun s hrun hend => ?_⟩⟩
  · obtain ⟨r', re, se, l⟩ := h.exists_link hd hr hi hset
    refine ⟨r', re, se, l, l.size_eq hd hi (h.inside hd hr), fun x hx => ?_, fun x hx => ?_, fun n x x' hx hx' j =>
      l.globalCell_eq hd hi (h.inside hd hr) hx hx' j⟩
    · exact ((mem_receive_cells (by omega) hi.1 (by omega) l.ofBuffer_receive).mp hx).inBuffer
        (fun j => h.size_nonneg j _) hguard
    · exact send_cells_inBuffer (by omega) hi.1 (by omega) l.ofBuffer_send (fun j => h.size_nonneg j _) hguard hx
  · obtain ⟨e, he, he'⟩ := (h.registered_all hd hr).receive i hi
    obtain ⟨e₂, he₂, he₂'⟩ := (h.registered_all hd hr).receive j hj
    obtain rfl := Option.some.inj (he.symm.trans hre)
    obtain rfl := Option.some.inj (he₂.symm.trans hre')
    intro x hx hx'
    exact hij (InHalo.direction_unique (fun j => h.size_nonneg j _) hi.2 hj.2
      ((mem_receive_cells (by omega) hi.1 (by omega) he').mp hx)
      ((mem_receive_cells (by omega) hj.1 (by omega) he₂').mp hx'))
  · obtain ⟨j, hj, rfl⟩ := hp.surj p hp₁
    obtain ⟨j', hj', rfl⟩ := hp.surj q hq₁
    rw [hp.owner j hj, hp.owner j' hj'] at h1
    rw [hp.peer j hj, hp.peer j' hj'] at h2
    rw [hp.tag j hj, hp.tag j' hj'] at h3
    rw [hp.unique j hj j' hj' h2 h1 h3]
  · obtain ⟨hdone, hkeep, hstored⟩ := Run.final hp hrun hend
    refine ⟨hdone, fun r hr i hi hset => ?_, fun r x hx => hkeep r x ?_⟩
    · obtain ⟨r', re, se, l⟩ := h.exists_link hd hr hi hset
      refine ⟨r', l.ranks, fun x hx hwithin => ?_⟩
      obtain ⟨n, x', hn, hn', hinterior⟩ := h.exists_source hd hr hi l hx
      have hin' := hinterior hwithin
      refine ⟨x', hin', fun j => l.globalCell_eq hd hi (h.inside hd hr) hn hn' j, ?_⟩
      have hval := hstored (r, i) ((h.mem_receives hd).mpr ⟨hr, hi, hset⟩) n x x'
      rw [l.send_eq, l.receive_eq] at hval
      exact hval hn hn' (h.untouched_of_interior hd hin')
    · rintro ⟨r₂, i⟩ hj howner hmem
      obtain ⟨hr, hi, hset⟩ := (h.mem_receives hd).mp hj
      obtain ⟨r', re, se, l⟩ := h.exists_link hd hr hi hset
      rw [l.receive_eq] at howner hmem
      dsimp only at howner
      subst howner
      exact hx hr i hi hset ((mem_receive_cells (by omega) hi.1 (by omega) l.ofBuffer_receive).mp hmem)

end Rounds

section Examples

theorem exists_setup {d : ℕ} (hd : d ≤ 1) (g : ProcessGrid (d + 2)) (k : ℕ) {n guard originGuard endGuard : DataSpace (d + 2)}
    (hn : ∀ j, 0 ≤ n j)
    (hmargin : ∀ j, (0 ≤ originGuard j ∧ originGuard j ≤ guard j) ∧ 0 ≤ endGuard j ∧ endGuard j ≤ guard j)
    {communicationTag : ℕ} {tags tags' : UniquTag} {buffer : GridBuffer (d + 2)}
    (hreg : addGuardExchanges originGuard endGuard communicationTag (tags, .init ⟨n, guard⟩) = .ok (tags', buffer)) :
    ∃ comm, Setup g comm (fun _ => buffer) (fun j _ => n j) guard k originGuard endGuard communicationTag := by
  choose comm hcomm _ using fun r => Communicator.afterSlides_spec hd g r k
  exact ⟨comm, hcomm, fun j _ => hn j, hmargin, fun r _ => ⟨tags, tags', hreg⟩⟩

def rowOfTwo : ProcessGrid 2 := ⟨![2, 1], ![false, false], by decide⟩

def oneCell : Except String (UniquTag × GridBuffer 2) :=
  addGuardExchanges (fun _ => 2) (fun _ => 2) 1 (∅, .init ⟨fun _ => 1, fun _ => 2⟩)

theorem oneCell_returns : oneCell.toOption.isSome = true := by
  decide +kernel

theorem guard_exchange_oneCell : 0 ≤ 1 ∧ ∃ comm buffer,
    Setup rowOfTwo comm buffer (fun _ _ => 1) (fun _ => 2) 0 (fun _ => 2) (fun _ => 2) 1 ∧
    ∀ mem₀ : ℕ → DataSpace 2 → ℕ, ∃ s, Run (send comm buffer) (receive comm buffer)
        ⟨mem₀, [], sends rowOfTwo comm buffer, receives rowOfTwo comm buffer⟩ s ∧ s.network = [] := by
  have hret := oneCell_returns
  cases hrun : oneCell with
  | error e => simp [hrun, Except.toOption] at hret
  | ok st =>
    obtain ⟨comm, h⟩ := exists_setup (d := 0) (by decide) rowOfTwo 0 (n := fun _ => 1) (by decide) (by decide) hrun
    refine ⟨by decide, comm, fun _ => st.2, h, fun mem₀ => ?_⟩
    obtain ⟨⟨s, hs, hend⟩, hfinal⟩ := (guard_exchange (V := ℕ) (d := 0) (by decide) h).2.2.2 mem₀
    exact ⟨s, hs, (hfinal s hs hend).1.1⟩

/-- A margin wider than the neighbor: the outer guard cell receives a guard cell. -/
theorem wide_margin_receives_guard : ∃ comm buffer,
    Setup rowOfTwo comm buffer (fun _ _ => 1) (fun _ => 2) 0 (fun _ => 2) (fun _ => 2) 1 ∧
    (comm 1).communicationMask.isSet LEFT = true ∧
    InHalo (layout comm (fun _ _ => 1) (fun _ => 2) 1) (fun _ => 2) (fun _ => 2) LEFT ![0, 2] ∧
    ∀ s, Run (send comm buffer) (receive comm buffer)
        ⟨fun r x => (r, x), [], sends rowOfTwo comm buffer, receives rowOfTwo comm buffer⟩ s →
      (∀ s', ¬Step (send comm buffer) (receive comm buffer) s s') →
      ∀ r' x', Interior (layout comm (fun _ _ => 1) (fun _ => 2) r') x' → s.mem 1 ![0, 2] ≠ (r', x') := by
  have hret := oneCell_returns
  cases hrun : oneCell with
  | error e => simp [hrun, Except.toOption] at hret
  | ok st =>
    obtain ⟨comm, h⟩ := exists_setup (d := 0) (by decide) rowOfTwo 0 (n := fun _ => 1) (by decide) (by decide) hrun
    have hu := h.updated (by decide)
    have hzero : Communicator.slideOffset rowOfTwo 0 = 0 := by simp [Communicator.slideOffset]
    have hsize : 1 < rowOfTwo.size := by decide
    have hdir : getRelativeDirections 2 LEFT = ![-1, 0] := by decide
    have hcoords : (comm 1).coordinates = ![1, 0] := by
      rw [(hu 1).coordinates_eq, hzero]
      funext j
      fin_cases j
      · exact Communicator.rotatedCoords_of_ne rowOfTwo 1 0 (by decide)
      · exact Communicator.rotatedCoords_one rowOfTwo hsize 0
    have hset : (comm 1).communicationMask.isSet LEFT = true := by
      rw [(hu 1).isSet_iff LEFT (by decide) (by decide), hcoords]
      decide
    have hhalo : InHalo (layout comm (fun _ _ => 1) (fun _ => 2) 1) (fun _ => 2) (fun _ => 2) LEFT ![0, 2] := by
      intro j
      fin_cases j <;> simp [hdir, layout]
    refine ⟨comm, fun _ => st.2, h, hset, hhalo, fun s hrun hend => ?_⟩
    have hleft : 1 ≤ LEFT ∧ LEFT < numberOfExchanges (0 + 2) := by decide
    obtain ⟨r', re, se, l⟩ := h.exists_link (by decide) hsize hleft hset
    obtain ⟨n, x', hn, hn', -⟩ := h.exists_source (by decide) hsize hleft l hhalo
    have hx' : x' = ![1, 2] := by
      funext j
      have hcell := exchange_cells (by decide) hleft.1 (by decide) l.ofBuffer_receive l.ofBuffer_send rfl
        (l.dataSpace_eq (h.inside (by decide) hsize)) hn hn' j
      rw [hcell]
      fin_cases j <;> simp [hdir, layout]
    have hcoords' : (comm r').coordinates = ![0, 0] := by
      rw [l.coordinates, hcoords]
      decide
    have huntouched : Untouched (receive comm fun _ => st.2) (receives rowOfTwo comm fun _ => st.2) r' x' := by
      rintro ⟨r₂, i⟩ hj howner hmem
      obtain ⟨hr, hi, hset₂⟩ := (h.mem_receives (by decide)).mp hj
      obtain ⟨r₃, re₂, se₂, l₂⟩ := h.exists_link (by decide) hr hi hset₂
      rw [l₂.receive_eq] at howner hmem
      dsimp only at howner
      subst howner
      have hin := (mem_receive_cells (by decide) hi.1 (by have := hi.2; simp [numberOfExchanges] at this; omega)
        l₂.ofBuffer_receive).mp hmem 0
      have hok := ((hu r₂).isSet_iff i hi.1 hi.2).mp hset₂ 0
      rw [hcoords'] at hok
      rw [hx'] at hin
      rcases getRelativeDirections_cases 2 i 0 with hdir | hdir | hdir
      · rw [Pi.add_apply, hdir] at hok
        revert hok
        decide
      · rw [hdir] at hin
        revert hin
        simp [layout]
      · rw [hdir] at hin
        revert hin
        simp [layout]
    have hval := (Run.final (h.paired (by decide)) hrun hend).2.2 (1, LEFT)
      ((h.mem_receives (by decide)).mpr ⟨hsize, hleft, hset⟩) n ![0, 2] x'
    rw [l.send_eq, l.receive_eq] at hval
    intro r₂ x₂ hx₂ heq
    rw [hval hn hn' huntouched, Prod.mk.injEq] at heq
    have hout := hx₂ 0
    rw [← heq.2, hx'] at hout
    simp [layout] at hout

end Examples

end HaloExchange

end PIConGPU
