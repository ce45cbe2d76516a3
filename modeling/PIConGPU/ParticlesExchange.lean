import PIConGPU.KernelInsertParticles

/-!
# Particles exchange in rounds

A device sends the particles of its guard in rounds of at most `maxSize` particles, and goes on as long as a round is
full. Its neighbor receives and inserts as long as the messages are full. The steps of both, and of all blocks of their
kernels, happen in any order.
-/
namespace PIConGPU.ParticlesExchange

open ParticlesBox KernelBashParticles KernelInsertParticles DataSpaceOperations

/-- The state of `TaskSendParticlesExchange`. While it waits for a send, the stack is first copied to the host. -/
inductive SendState (ι : Type*) (T : ℕ)
  | waitForBash (phases : ι → KernelBashParticles.Phase T)
  | waitForCopy (lastSize : ℕ)
  | waitForSend (lastSize : ℕ)
  | waitForSendEnd
  | finished

inductive ReceiveState (D : ℕ)
  | waitForReceive
  | waitForInsert (lastSize grid : ℕ) (phases : Fin grid → KernelInsertParticles.Phase D)
  | finished

/-- Both devices with the rounds they have begun, and the messages in flight. -/
structure State (ι : Type*) (D T : ℕ) (α : Type*) where
  sender : Memory D T α
  send : SendState ι T
  sendRounds : ℕ
  channel : List (StackExchangeBuffer D α)
  receiver : Memory D T α
  receive : ReceiveState D
  receiveRounds : ℕ

variable {ι α : Type*} {D T : ℕ}

def State.initSend (s : State ι D T α) : State ι D T α :=
  { s with
    sender := ⟨s.sender.box, s.sender.border.setCurrentSize 0⟩
    send := .waitForBash fun _ => .init
    sendRounds := s.sendRounds + 1 }

def State.initReceive (s : State ι D T α) : State ι D T α :=
  { s with receive := .waitForReceive, receiveRounds := s.receiveRounds + 1 }

def start (sender receiver : Memory D T α) : State ι D T α :=
  State.initReceive (State.initSend ⟨sender, .finished, 0, [], receiver, .finished, 0⟩)

inductive Step [DecidableEq ι] (M : MallocMC) (mapper : MappingDescription D) (maxSize i j : ℕ)
    (superCellIdx : ι → DataSpace D) : State ι D T α → State ι D T α → Prop
  | bash {s : State ι D T α} {phases phases' : ι → KernelBashParticles.Phase T} {m : Memory D T α}
      (hs : s.send = .waitForBash phases)
      (h : KernelLaunch.Step (fun b => KernelBashParticles.Block maxSize i (superCellIdx b)) (s.sender, phases)
        (m, phases')) :
    Step M mapper maxSize i j superCellIdx s { s with sender := m, send := .waitForBash phases' }
  | bashed {s : State ι D T α} (hs : s.send = .waitForBash fun _ => .finished) :
    Step M mapper maxSize i j superCellIdx s { s with send := .waitForCopy s.sender.border.counters.currentSize }
  | copied {s : State ι D T α} {lastSize : ℕ} (hs : s.send = .waitForCopy lastSize) :
    Step M mapper maxSize i j superCellIdx s
      { s with channel := s.channel ++ [s.sender.border], send := .waitForSend lastSize }
  | sent {s : State ι D T α} {lastSize : ℕ} (hs : s.send = .waitForSend lastSize) :
    Step M mapper maxSize i j superCellIdx s
      (if lastSize = maxSize then s.initSend else { s with send := .waitForSendEnd })
  | sendEnd {s : State ι D T α} (hs : s.send = .waitForSendEnd) :
    Step M mapper maxSize i j superCellIdx s { s with send := .finished }
  | receive {s : State ι D T α} {message : StackExchangeBuffer D α} {channel : List (StackExchangeBuffer D α)}
      (hs : s.receive = .waitForReceive) (hchannel : s.channel = message :: channel) :
    Step M mapper maxSize i j superCellIdx s
      { s with
        channel := channel
        receiver := ⟨s.receiver.box, message⟩
        receive := .waitForInsert message.counters.currentSize message.counters.indexSize fun _ => .pop }
  | insert {s : State ι D T α} {lastSize grid : ℕ} {phases phases' : Fin grid → KernelInsertParticles.Phase D}
      {m : Memory D T α} (hs : s.receive = .waitForInsert lastSize grid phases)
      (h : KernelLaunch.Step (fun _ => KernelInsertParticles.Block M mapper j) (s.receiver, phases) (m, phases')) :
    Step M mapper maxSize i j superCellIdx s { s with receiver := m, receive := .waitForInsert lastSize grid phases' }
  | inserted {s : State ι D T α} {lastSize grid : ℕ} (hs : s.receive = .waitForInsert lastSize grid fun _ => .finished) :
    Step M mapper maxSize i j superCellIdx s
      (if lastSize = maxSize then s.initReceive else { s with receive := .finished })

/-- A block of the receiver got no frame. -/
def OutOfMemory (s : State ι D T α) : Prop :=
  ∃ lastSize grid phases b, s.receive = .waitForInsert lastSize grid phases ∧ KernelInsertParticles.OutOfMemory (phases b)

section Channel

variable {maxSize : ℕ}

/-- The sender has begun its last round and sent the message. -/
def SendState.closed (maxSize : ℕ) : SendState ι T → Bool
  | .waitForSend lastSize => lastSize != maxSize
  | .waitForSendEnd => true
  | .finished => true
  | _ => false

/-- The receiver will not receive again. -/
def ReceiveState.ended (maxSize : ℕ) : ReceiveState D → Bool
  | .waitForReceive => false
  | .waitForInsert lastSize _ _ => lastSize != maxSize
  | .finished => true

/-- The messages in flight after a message with or without `ended`: all are full but the last one of a closed channel. -/
def InFlight (maxSize : ℕ) (closed : Bool) : Bool → List (StackExchangeBuffer D α) → Prop
  | ended, [] => closed = ended
  | ended, message :: channel =>
    ended = false ∧ InFlight maxSize closed (message.counters.currentSize != maxSize) channel

theorem InFlight.concat {ended : Bool} {channel : List (StackExchangeBuffer D α)} (h : InFlight maxSize false ended channel)
    (message : StackExchangeBuffer D α) :
    InFlight maxSize (message.counters.currentSize != maxSize) ended (channel ++ [message]) := by
  induction channel generalizing ended with
  | nil => exact ⟨h.symm, rfl⟩
  | cons first channel ih => exact ⟨h.1, ih h.2⟩

/-- 1 if the message of the current round is sent. -/
def SendState.posted : SendState ι T → ℕ
  | .waitForBash _ => 0
  | .waitForCopy _ => 0
  | _ => 1

/-- 1 if the message of the current round is received. -/
def ReceiveState.taken : ReceiveState D → ℕ
  | .waitForReceive => 0
  | _ => 1

end Channel

section Invariant

structure Message (maxSize T : ℕ) (message : StackExchangeBuffer D α) : Prop where
  wellFormed : message.WellFormed T
  indexSize_le : message.counters.indexSize ≤ maxSize
  currentSize_le : message.counters.currentSize ≤ maxSize

/-- What the sender knows. The particles of `rest` are not sent yet. -/
def Sending [Fintype ι] (maxSize i : ℕ) (superCellIdx : ι → DataSpace D) (m : Memory D T α) (rest : ι → Multiset α)
    (steps : ℕ) : SendState ι T → Prop
  | .waitForBash phases => ∃ origin box L calls L', Linked box L ∧ (∀ c, ∀ p ∈ L c, origin p = c) ∧
      Bashing maxSize i superCellIdx origin box L calls L' m phases ∧
      (∀ b, rest b = box.contents (L (superCellIdx b)) 1) ∧ steps = 4 + stepsLeft superCellIdx L' phases
  | .waitForCopy lastSize => ∃ box L L' sent, Drained maxSize i superCellIdx box L m L' sent ∧
      (∀ b, rest b = box.contents (L (superCellIdx b)) 1) ∧ lastSize = m.border.counters.currentSize ∧ steps = 3
  | .waitForSend lastSize => ∃ L, Linked m.box L ∧ (∀ b, rest b = m.box.contents (L (superCellIdx b)) 1) ∧
      lastSize ≤ maxSize ∧ (lastSize < maxSize → ∀ b, L (superCellIdx b) = []) ∧ steps = 2
  | .waitForSendEnd => ∃ L, Linked m.box L ∧ (∀ b, L (superCellIdx b) = []) ∧ (∀ b, rest b = 0) ∧ steps = 1
  | .finished => ∃ L, Linked m.box L ∧ (∀ b, L (superCellIdx b) = []) ∧ (∀ b, rest b = 0) ∧ steps = 0

/-- What the receiver knows. The particles of `arrived` are in its supercells or in its stack. -/
def Receiving (M : MallocMC) (mapper : MappingDescription D) (j : ℕ) (m : Memory D T α)
    (arrived : DataSpace D → Multiset α) (steps : ℕ) : ReceiveState D → Prop
  | .waitForReceive => (∃ L, Linked m.box L ∧ ∀ c, arrived c = m.box.contents (L c) 1) ∧ steps = 0
  | .waitForInsert _ _ phases => ∃ start L L' leaked, Inserting M mapper j start L L' leaked m phases ∧
      start.border.WellFormed T ∧ start.border.counters.indexSize < 2^31 ∧
      (∀ c, arrived c = start.box.contents (L c) 1 + arrivals mapper j c start.border.particles) ∧
      steps = 1 + ∑ b, (phases b).rank
  | .finished => (∃ L, Linked m.box L ∧ ∀ c, arrived c = m.box.contents (L c) 1) ∧ steps = 0

/-- How many particles the rounds before the current one have left, with `rest` particles that are not sent. -/
def SendState.Left (maxSize rest left : ℕ) : SendState ι T → Prop
  | .waitForBash _ => left = rest
  | .waitForCopy _ => left = rest
  | .waitForSend lastSize => left = lastSize + rest
  | _ => left < maxSize

/-- What holds in every state, with the particles that a supercell of the receiver has in the end. -/
structure Exchanging [Fintype ι] (M : MallocMC) (mapper : MappingDescription D) (maxSize i j : ℕ)
    (superCellIdx : ι → DataSpace D) (total : DataSpace D → Multiset α) (N : ℕ) (rest : ι → Multiset α)
    (arrived : DataSpace D → Multiset α) (sendSteps receiveSteps : ℕ) (s : State ι D T α) : Prop where
  sending : Sending maxSize i superCellIdx s.sender rest sendSteps s.send
  receiving : Receiving M mapper j s.receiver arrived receiveSteps s.receive
  messages : ∀ message ∈ s.channel, Message maxSize T message
  inFlight : InFlight maxSize (s.send.closed maxSize) (s.receive.ended maxSize) s.channel
  rounds : s.sendRounds + s.send.posted = s.receiveRounds + s.receive.taken + s.channel.length
  counted : ∃ k left, s.sendRounds = k + 1 ∧ N = k * maxSize + left ∧ s.send.Left maxSize (∑ b, (rest b).card) left
  contents : ∀ c, arrived c + (s.channel.map fun message => arrivals mapper j c message.particles).sum +
    ∑ b, (if dstSuperCell mapper j (reduce (superCellIdx b) i) = c then rest b else 0) = total c

/-- The rounds of the sender that are left, its steps in the current round, and what is left for the receiver. -/
def rank (maxSize N sendSteps receiveSteps : ℕ) (s : State ι D T α) : ℕ ×ₗ ℕ ×ₗ ℕ ×ₗ ℕ :=
  toLex (N / maxSize + 1 - s.sendRounds, toLex (sendSteps, toLex (s.channel.length, receiveSteps)))

variable {maxSize N sendSteps sendSteps' receiveSteps receiveSteps' : ℕ} {s s' : State ι D T α}

theorem rank_lt_of_round (hrounds : s'.sendRounds = s.sendRounds + 1) (hle : s.sendRounds ≤ N / maxSize) :
    rank maxSize N sendSteps' receiveSteps' s' < rank maxSize N sendSteps receiveSteps s := by
  refine Prod.Lex.toLex_lt_toLex.mpr (.inl ?_)
  dsimp only
  omega

theorem rank_lt_of_send (hrounds : s'.sendRounds = s.sendRounds) (hlt : sendSteps' < sendSteps) :
    rank maxSize N sendSteps' receiveSteps' s' < rank maxSize N sendSteps receiveSteps s :=
  Prod.Lex.toLex_lt_toLex.mpr (.inr ⟨by rw [hrounds], Prod.Lex.toLex_lt_toLex.mpr (.inl hlt)⟩)

theorem rank_lt_of_receive (hrounds : s'.sendRounds = s.sendRounds)
    (hlt : s'.channel.length < s.channel.length ∨
      s'.channel.length = s.channel.length ∧ receiveSteps' < receiveSteps) :
    rank maxSize N sendSteps receiveSteps' s' < rank maxSize N sendSteps receiveSteps s :=
  Prod.Lex.toLex_lt_toLex.mpr (.inr ⟨by rw [hrounds], Prod.Lex.toLex_lt_toLex.mpr (.inr ⟨rfl,
    Prod.Lex.toLex_lt_toLex.mpr hlt⟩)⟩)

end Invariant

section Run

variable [Fintype ι] [DecidableEq ι] {M : MallocMC} {mapper : MappingDescription D} {maxSize i j N : ℕ}
  {superCellIdx : ι → DataSpace D} {total : DataSpace D → Multiset α} {rest rest' : ι → Multiset α}
  {arrived arrived' : DataSpace D → Multiset α} {sendSteps sendSteps' receiveSteps receiveSteps' : ℕ}
  {s s' : State ι D T α}

omit [DecidableEq ι] in
theorem Exchanging.send (h : Exchanging M mapper maxSize i j superCellIdx total N rest arrived sendSteps receiveSteps s)
    (m : Memory D T α) (send : SendState ι T) (hsending : Sending maxSize i superCellIdx m rest sendSteps' send)
    (hclosed : send.closed maxSize = s.send.closed maxSize) (hposted : send.posted = s.send.posted)
    (hleft : ∀ left, s.send.Left maxSize (∑ b, (rest b).card) left → send.Left maxSize (∑ b, (rest b).card) left) :
    Exchanging M mapper maxSize i j superCellIdx total N rest arrived sendSteps' receiveSteps
      { s with sender := m, send := send } where
  sending := hsending
  receiving := h.receiving
  messages := h.messages
  inFlight := by
    dsimp only
    rw [hclosed]
    exact h.inFlight
  rounds := by
    dsimp only
    rw [hposted]
    exact h.rounds
  counted := by
    obtain ⟨k, left, hrounds, hN, hcount⟩ := h.counted
    exact ⟨k, left, hrounds, hN, hleft left hcount⟩
  contents := h.contents

theorem Exchanging.bash (hT : T ≤ 65535) (hmax : maxSize < 2^32) (hfits : maxSize + Fintype.card ι * T < 2^32)
    (hinj : Function.Injective superCellIdx)
    (h : Exchanging M mapper maxSize i j superCellIdx total N rest arrived sendSteps receiveSteps s)
    {phases phases' : ι → KernelBashParticles.Phase T} {m : Memory D T α} (hs : s.send = .waitForBash phases)
    (hstep : KernelLaunch.Step (fun b => KernelBashParticles.Block maxSize i (superCellIdx b)) (s.sender, phases)
      (m, phases')) :
    ∃ sendSteps', Exchanging M mapper maxSize i j superCellIdx total N rest arrived sendSteps' receiveSteps
      { s with sender := m, send := .waitForBash phases' } ∧ sendSteps' < sendSteps := by
  have hsending := h.sending
  rw [hs] at hsending
  obtain ⟨origin, box, L, calls, L', hL, horigin, hbashing, hrest, rfl⟩ := hsending
  cases hstep with
  | mk hblock =>
    obtain ⟨calls', L'', hnext, hlists, hlt⟩ := hbashing.step hT hmax hfits hinj hL horigin hblock
    refine ⟨_, h.send m _ ⟨origin, box, L, calls', L'', hL, horigin, hnext, hrest, rfl⟩ (by rw [hs]; rfl)
      (by rw [hs]; rfl) fun left hleft => by rwa [hs] at hleft, ?_⟩
    exact Nat.add_lt_add_left (stepsLeft_lt hinj hlists hlt) 4

omit [DecidableEq ι] in
theorem Exchanging.bashed (hinj : Function.Injective superCellIdx)
    (h : Exchanging M mapper maxSize i j superCellIdx total N rest arrived sendSteps receiveSteps s)
    (hs : s.send = .waitForBash fun _ => .finished) :
    ∃ sendSteps', Exchanging M mapper maxSize i j superCellIdx total N rest arrived sendSteps' receiveSteps
      { s with send := .waitForCopy s.sender.border.counters.currentSize } ∧ sendSteps' < sendSteps := by
  have hsending := h.sending
  rw [hs] at hsending
  obtain ⟨origin, box, L, calls, L', hL, horigin, hbashing, hrest, rfl⟩ := hsending
  exact ⟨3, h.send s.sender _ ⟨box, L, L', _, hbashing.drained hinj hL horigin, hrest, rfl, rfl⟩ (by rw [hs]; rfl)
    (by rw [hs]; rfl) fun left hleft => by rwa [hs] at hleft, by omega⟩

omit [DecidableEq ι] in
/-- The stack of the sender becomes a message. -/
theorem Exchanging.copied
    (h : Exchanging M mapper maxSize i j superCellIdx total N rest arrived sendSteps receiveSteps s) {lastSize : ℕ}
    (hs : s.send = .waitForCopy lastSize) :
    ∃ rest' sendSteps', Exchanging M mapper maxSize i j superCellIdx total N rest' arrived sendSteps' receiveSteps
      { s with channel := s.channel ++ [s.sender.border], send := .waitForSend lastSize } ∧ sendSteps' < sendSteps := by
  have hsending := h.sending
  rw [hs] at hsending
  obtain ⟨box, L, L', sent, hdrained, hrest, rfl, rfl⟩ := hsending
  have hsplit : ∀ b, rest b = sent b + s.sender.box.contents (L' (superCellIdx b)) 1 := fun b =>
    (hrest b).trans (hdrained.contents_eq b)
  refine ⟨fun b => s.sender.box.contents (L' (superCellIdx b)) 1, 2, ⟨⟨L', hdrained.linked, fun _ => rfl,
    hdrained.currentSize_le, hdrained.drained, rfl⟩, h.receiving, fun message hmessage => ?_, ?_, ?_, ?_, fun c => ?_⟩,
    Nat.lt_succ_self 2⟩
  · rcases List.mem_append.mp hmessage with hmessage | hmessage
    · exact h.messages message hmessage
    · rw [List.mem_singleton.mp hmessage]
      exact ⟨hdrained.wellFormed, hdrained.indexSize_le, hdrained.currentSize_le⟩
  · have hflight := h.inFlight
    rw [hs] at hflight
    exact hflight.concat s.sender.border
  · have hrounds := h.rounds
    rw [hs] at hrounds
    simp only [SendState.posted, List.length_append, List.length_singleton] at hrounds ⊢
    omega
  · obtain ⟨k, left, hrounds, hN, hleft⟩ := h.counted
    rw [hs] at hleft
    refine ⟨k, left, hrounds, hN, hleft.trans ?_⟩
    rw [hdrained.currentSize, ← Finset.sum_add_distrib]
    exact Finset.sum_congr rfl fun b _ => by rw [hsplit b, Multiset.card_add]
  · rw [← h.contents c, List.map_append, List.sum_append, List.map_singleton, List.sum_singleton, hdrained.particles_eq,
      map_sum, add_assoc, add_assoc, add_assoc, ← Finset.sum_add_distrib]
    congr 2
    refine Finset.sum_congr rfl fun b _ => ?_
    rw [arrivals_map_mk, hsplit b]
    split <;> simp

omit [Fintype ι] [DecidableEq ι] in
theorem exists_origin {box : ParticlesBox D T α} {L : DataSpace D → List Ptr} (hL : Linked box L) :
    ∃ origin : Ptr → DataSpace D, ∀ c, ∀ p ∈ L c, origin p = c := by
  classical
  refine ⟨fun p => if h : ∃ c, p ∈ L c then h.choose else 0, fun c p hp => ?_⟩
  have h : ∃ c, p ∈ L c := ⟨c, hp⟩
  dsimp only
  rw [dif_pos h]
  exact hL.disjoint _ _ p h.choose_spec hp

omit [DecidableEq ι] in
theorem sending_init (maxSize i : ℕ) (superCellIdx : ι → DataSpace D) {m : Memory D T α} {L : DataSpace D → List Ptr}
    (hL : Linked m.box L) :
    ∃ sendSteps, Sending maxSize i superCellIdx ⟨m.box, m.border.setCurrentSize 0⟩
      (fun b => m.box.contents (L (superCellIdx b)) 1) sendSteps (.waitForBash fun _ : ι => .init) := by
  obtain ⟨origin, horigin⟩ := exists_origin hL
  exact ⟨_, origin, m.box, L, _, L, hL, horigin, bashing_start hL m.border, fun _ => rfl, rfl⟩

omit [DecidableEq ι] in
/-- A full round is followed by another one, and the sender has not sent more than there is. -/
theorem Exchanging.initSend (hpos : 0 < maxSize)
    (h : Exchanging M mapper maxSize i j superCellIdx total N rest arrived sendSteps receiveSteps s)
    (hs : s.send = .waitForSend maxSize) :
    ∃ sendSteps', Exchanging M mapper maxSize i j superCellIdx total N rest arrived sendSteps' receiveSteps s.initSend ∧
      s.sendRounds ≤ N / maxSize := by
  have hsending := h.sending
  rw [hs] at hsending
  obtain ⟨L, hL, hrest, -⟩ := hsending
  obtain ⟨sendSteps', hinit⟩ := sending_init maxSize i superCellIdx hL
  obtain ⟨k, left, hrounds, hN, hleft⟩ := h.counted
  rw [hs] at hleft
  obtain rfl : rest = fun b => s.sender.box.contents (L (superCellIdx b)) 1 := funext hrest
  refine ⟨sendSteps', ⟨hinit, h.receiving, h.messages, ?_, ?_, ⟨k + 1, _, ?_, ?_, rfl⟩, h.contents⟩, ?_⟩
  · have hclosed : (SendState.waitForSend maxSize : SendState ι T).closed maxSize = false := by simp [SendState.closed]
    have hflight := h.inFlight
    rwa [hs, hclosed] at hflight
  · have hrounds := h.rounds
    rw [hs] at hrounds
    exact hrounds
  · rw [State.initSend, hrounds]
  · rw [hN, hleft, Nat.succ_mul, Nat.add_assoc]
  · rw [Nat.le_div_iff_mul_le hpos, hN, hrounds, hleft, Nat.succ_mul]
    omega

omit [DecidableEq ι] in
/-- After a round that is not full nothing is left. -/
theorem Exchanging.sendEnd
    (h : Exchanging M mapper maxSize i j superCellIdx total N rest arrived sendSteps receiveSteps s) {lastSize : ℕ}
    (hs : s.send = .waitForSend lastSize) (hlast : lastSize ≠ maxSize) :
    ∃ sendSteps', Exchanging M mapper maxSize i j superCellIdx total N rest arrived sendSteps' receiveSteps
      { s with send := .waitForSendEnd } ∧ sendSteps' < sendSteps := by
  have hsending := h.sending
  rw [hs] at hsending
  obtain ⟨L, hL, hrest, hle, hempty, rfl⟩ := hsending
  have hlt := lt_of_le_of_ne hle hlast
  have hzero : ∀ b, rest b = 0 := fun b => by rw [hrest b, hempty hlt b, contents_nil]
  refine ⟨1, h.send s.sender _ ⟨L, hL, hempty hlt, hzero, rfl⟩ (by rw [hs]; simp [SendState.closed, hlast])
    (by rw [hs]; rfl) fun left hleft => ?_, Nat.lt_succ_self 1⟩
  rw [hs, Finset.sum_eq_zero fun b _ => by rw [hzero b]; rfl] at hleft
  rw [show left = lastSize from hleft]
  exact hlt

omit [DecidableEq ι] in
theorem Exchanging.finishSend
    (h : Exchanging M mapper maxSize i j superCellIdx total N rest arrived sendSteps receiveSteps s)
    (hs : s.send = .waitForSendEnd) :
    ∃ sendSteps', Exchanging M mapper maxSize i j superCellIdx total N rest arrived sendSteps' receiveSteps
      { s with send := .finished } ∧ sendSteps' < sendSteps := by
  have hsending := h.sending
  rw [hs] at hsending
  obtain ⟨L, hL, hempty, hzero, rfl⟩ := hsending
  exact ⟨0, h.send s.sender _ ⟨L, hL, hempty, hzero, rfl⟩ (by rw [hs]; rfl) (by rw [hs]; rfl)
    fun left hleft => by rwa [hs] at hleft, Nat.one_pos⟩

omit [DecidableEq ι] in
theorem Exchanging.receive
    (h : Exchanging M mapper maxSize i j superCellIdx total N rest arrived sendSteps receiveSteps s)
    (hsender : s'.sender = s.sender) (hsend : s'.send = s.send) (hsendRounds : s'.sendRounds = s.sendRounds)
    (hreceiving : Receiving M mapper j s'.receiver arrived' receiveSteps' s'.receive)
    (hmessages : ∀ message ∈ s'.channel, message ∈ s.channel)
    (hflight : InFlight maxSize (s.send.closed maxSize) (s'.receive.ended maxSize) s'.channel)
    (hrounds : s'.receiveRounds + s'.receive.taken + s'.channel.length =
      s.receiveRounds + s.receive.taken + s.channel.length)
    (hcontents : ∀ c, arrived' c + (s'.channel.map fun message => arrivals mapper j c message.particles).sum =
      arrived c + (s.channel.map fun message => arrivals mapper j c message.particles).sum) :
    Exchanging M mapper maxSize i j superCellIdx total N rest arrived' sendSteps receiveSteps' s' where
  sending := by
    rw [hsender, hsend]
    exact h.sending
  receiving := hreceiving
  messages message hmessage := h.messages message (hmessages message hmessage)
  inFlight := by rwa [hsend]
  rounds := by rw [hsend, hsendRounds, hrounds, h.rounds]
  counted := by
    rw [hsend, hsendRounds]
    exact h.counted
  contents c := by rw [hcontents c, h.contents c]

omit [DecidableEq ι] in
theorem Exchanging.received (hmax : maxSize < 2^31)
    (h : Exchanging M mapper maxSize i j superCellIdx total N rest arrived sendSteps receiveSteps s)
    {message : StackExchangeBuffer D α} {channel : List (StackExchangeBuffer D α)} (hs : s.receive = .waitForReceive)
    (hchannel : s.channel = message :: channel) :
    ∃ arrived' receiveSteps', Exchanging M mapper maxSize i j superCellIdx total N rest arrived' sendSteps receiveSteps'
      { s with
        channel := channel
        receiver := ⟨s.receiver.box, message⟩
        receive := .waitForInsert message.counters.currentSize message.counters.indexSize fun _ => .pop } := by
  have hreceiving := h.receiving
  rw [hs] at hreceiving
  obtain ⟨⟨L, hL, harrived⟩, -⟩ := hreceiving
  obtain ⟨hformed, hindex, -⟩ := h.messages message (by rw [hchannel]; exact List.mem_cons_self)
  have hflight := h.inFlight
  rw [hchannel] at hflight
  have hstart : Inserting M mapper j ⟨s.receiver.box, message⟩ L L _ ⟨s.receiver.box, message⟩
      fun _ : Fin message.counters.indexSize => .pop := inserting_start hL (Fintype.card_fin _)
  refine ⟨fun c => s.receiver.box.contents (L c) 1 + arrivals mapper j c message.particles, _,
    h.receive rfl rfl rfl ⟨_, L, L, _, hstart, hformed, hindex.trans_lt hmax, fun _ => rfl, rfl⟩
      (fun message' hmessage => by rw [hchannel]; exact List.mem_cons_of_mem _ hmessage) hflight.2 ?_ fun c => ?_⟩
  · rw [hs, hchannel, List.length_cons]
    simp only [ReceiveState.taken]
    omega
  · rw [hchannel, List.map_cons, List.sum_cons, harrived c, add_assoc]

omit [DecidableEq ι] in
theorem Exchanging.insert
    (h : Exchanging M mapper maxSize i j superCellIdx total N rest arrived sendSteps receiveSteps s)
    {lastSize grid : ℕ} {phases phases' : Fin grid → KernelInsertParticles.Phase D} {m : Memory D T α}
    (hs : s.receive = .waitForInsert lastSize grid phases)
    (hstep : KernelLaunch.Step (fun _ => KernelInsertParticles.Block M mapper j) (s.receiver, phases) (m, phases')) :
    ∃ receiveSteps', Exchanging M mapper maxSize i j superCellIdx total N rest arrived sendSteps receiveSteps'
      { s with receiver := m, receive := .waitForInsert lastSize grid phases' } ∧ receiveSteps' < receiveSteps := by
  have hreceiving := h.receiving
  rw [hs] at hreceiving
  obtain ⟨start, L, L', leaked, hinserting, hformed, hsize, harrived, rfl⟩ := hreceiving
  have hflight := h.inFlight
  rw [hs] at hflight
  cases hstep with
  | mk hblock =>
    obtain ⟨L'', leaked', hnext, -⟩ := hinserting.step hsize hformed hblock
    refine ⟨_, h.receive rfl rfl rfl ⟨start, L, L'', leaked', hnext, hformed, hsize, harrived, rfl⟩ (fun _ => id)
      hflight (by rw [hs]; rfl) fun _ => rfl,
      Nat.add_lt_add_left (KernelLaunch.sum_update_lt hblock.rank_lt) 1⟩

omit [DecidableEq ι] in
theorem Exchanging.inserted
    (h : Exchanging M mapper maxSize i j superCellIdx total N rest arrived sendSteps receiveSteps s)
    {lastSize grid : ℕ} (hs : s.receive = .waitForInsert lastSize grid fun _ => .finished) :
    ∃ receiveSteps', Exchanging M mapper maxSize i j superCellIdx total N rest arrived sendSteps receiveSteps'
      (if lastSize = maxSize then s.initReceive else { s with receive := .finished }) ∧ receiveSteps' < receiveSteps := by
  have hreceiving := h.receiving
  rw [hs] at hreceiving
  obtain ⟨start, L, L', leaked, hinserting, -, -, harrived, rfl⟩ := hreceiving
  obtain ⟨hlinked, hcontents, -⟩ := hinserting.inserted
  have hdone : ∃ L, Linked s.receiver.box L ∧ ∀ c, arrived c = s.receiver.box.contents (L c) 1 :=
    ⟨L', hlinked, fun c => (harrived c).trans (hcontents c).symm⟩
  have hflight := h.inFlight
  rw [hs] at hflight
  refine ⟨0, ?_, by omega⟩
  split
  case isTrue hfull =>
    have hended : (lastSize != maxSize) = false := by simpa using hfull
    rw [ReceiveState.ended, hended] at hflight
    exact h.receive rfl rfl rfl ⟨hdone, rfl⟩ (fun _ => id) hflight (by rw [hs]; rfl) fun _ => rfl
  case isFalse hless =>
    have hended : (lastSize != maxSize) = true := by simpa using hless
    rw [ReceiveState.ended, hended] at hflight
    exact h.receive rfl rfl rfl ⟨hdone, rfl⟩ (fun _ => id) hflight (by rw [hs]; rfl) fun _ => rfl

/-- A step keeps what holds and has fewer steps before it. -/
theorem Exchanging.step (hT : T ≤ 65535) (hpos : 0 < maxSize) (hmax : maxSize < 2^31)
    (hfits : maxSize + Fintype.card ι * T < 2^32) (hinj : Function.Injective superCellIdx)
    (h : Exchanging M mapper maxSize i j superCellIdx total N rest arrived sendSteps receiveSteps s)
    (hstep : Step M mapper maxSize i j superCellIdx s s') :
    ∃ rest' arrived' sendSteps' receiveSteps',
      Exchanging M mapper maxSize i j superCellIdx total N rest' arrived' sendSteps' receiveSteps' s' ∧
      rank maxSize N sendSteps' receiveSteps' s' < rank maxSize N sendSteps receiveSteps s := by
  cases hstep with
  | bash hs hblock =>
    obtain ⟨_, hnext, hlt⟩ := h.bash hT (hmax.trans (by norm_num)) hfits hinj hs hblock
    exact ⟨_, _, _, _, hnext, rank_lt_of_send rfl hlt⟩
  | bashed hs =>
    obtain ⟨_, hnext, hlt⟩ := h.bashed hinj hs
    exact ⟨_, _, _, _, hnext, rank_lt_of_send rfl hlt⟩
  | copied hs =>
    obtain ⟨_, _, hnext, hlt⟩ := h.copied hs
    exact ⟨_, _, _, _, hnext, rank_lt_of_send rfl hlt⟩
  | sent hs =>
    split
    case isTrue hfull =>
      subst hfull
      obtain ⟨_, hnext, hle⟩ := h.initSend hpos hs
      exact ⟨_, _, _, _, hnext, rank_lt_of_round rfl hle⟩
    case isFalse hless =>
      obtain ⟨_, hnext, hlt⟩ := h.sendEnd hs hless
      exact ⟨_, _, _, _, hnext, rank_lt_of_send rfl hlt⟩
  | sendEnd hs =>
    obtain ⟨_, hnext, hlt⟩ := h.finishSend hs
    exact ⟨_, _, _, _, hnext, rank_lt_of_send rfl hlt⟩
  | receive hs hchannel =>
    obtain ⟨_, _, hnext⟩ := h.received hmax hs hchannel
    exact ⟨_, _, _, _, hnext, rank_lt_of_receive rfl (.inl (by rw [hchannel]; exact Nat.lt_succ_self _))⟩
  | insert hs hblock =>
    obtain ⟨_, hnext, hlt⟩ := h.insert hs hblock
    exact ⟨_, _, _, _, hnext, rank_lt_of_receive rfl (.inr ⟨rfl, hlt⟩)⟩
  | inserted hs =>
    obtain ⟨_, hnext, hlt⟩ := h.inserted hs
    refine ⟨_, _, _, _, hnext, rank_lt_of_receive ?_ (.inr ⟨?_, hlt⟩)⟩ <;>
    split <;> rfl

def guardParticles (superCellIdx : ι → DataSpace D) (sender : ParticlesBox D T α) (L : DataSpace D → List Ptr) : ℕ :=
  ∑ b, (sender.contents (L (superCellIdx b)) 1).card

/-- What a supercell of the receiver has in the end: its own particles and those of the guard supercells it covers. -/
def delivered (mapper : MappingDescription D) (i j : ℕ) (superCellIdx : ι → DataSpace D)
    (sender receiver : ParticlesBox D T α) (L L₀ : DataSpace D → List Ptr) (c : DataSpace D) : Multiset α :=
  receiver.contents (L₀ c) 1 + ∑ b,
    if ExchangeTarget.dstSuperCell mapper (superCellIdx b) i j = c then sender.contents (L (superCellIdx b)) 1 else 0

omit [DecidableEq ι] in
theorem exchanging_start {m m' : Memory D T α} {L L₀ : DataSpace D → List Ptr} (hL : Linked m.box L)
    (hL₀ : Linked m'.box L₀) (M : MallocMC) (mapper : MappingDescription D) (maxSize i j : ℕ)
    (superCellIdx : ι → DataSpace D) : ∃ sendSteps, Exchanging M mapper maxSize i j superCellIdx
      (delivered mapper i j superCellIdx m.box m'.box L L₀) (guardParticles superCellIdx m.box L)
      (fun b => m.box.contents (L (superCellIdx b)) 1) (fun c => m'.box.contents (L₀ c) 1) sendSteps 0 (start m m') := by
  obtain ⟨sendSteps, hinit⟩ := sending_init maxSize i superCellIdx hL
  refine ⟨sendSteps, hinit, ⟨⟨L₀, hL₀, fun _ => rfl⟩, rfl⟩, fun message hmessage => absurd hmessage List.not_mem_nil, rfl,
    rfl, ⟨0, _, rfl, ?_, rfl⟩, fun c => ?_⟩
  · rw [Nat.zero_mul, Nat.zero_add]
    rfl
  · rw [show (start m m' : State ι D T α).channel = [] from rfl, List.map_nil, List.sum_nil, add_zero]
    rfl

/-- The tasks come to a stop only when they are through, or without memory. -/
theorem Exchanging.terminal
    (h : Exchanging M mapper maxSize i j superCellIdx total N rest arrived sendSteps receiveSteps s)
    (hend : ∀ s', ¬ Step M mapper maxSize i j superCellIdx s s') :
    (OutOfMemory s ∧ ∃ k A, M.malloc k A = none) ∨ s.send = .finished ∧ s.receive = .finished ∧ s.channel = [] := by
  have hsend : s.send = .finished := by
    cases hs : s.send with
    | waitForBash phases =>
      by_cases hphases : ∀ b, phases b = .finished
      · obtain rfl : phases = fun _ => .finished := funext hphases
        exact absurd (.bashed hs) (hend _)
      · obtain ⟨b, hb⟩ := not_forall.mp hphases
        obtain ⟨m, phase, hblock⟩ := KernelBashParticles.Block.exists_step (superCellIdx b) s.sender hb
        exact absurd (.bash hs (.mk hblock)) (hend _)
    | waitForCopy lastSize => exact absurd (.copied hs) (hend _)
    | waitForSend lastSize => exact absurd (.sent hs) (hend _)
    | waitForSendEnd => exact absurd (.sendEnd hs) (hend _)
    | finished => rfl
  have hflight := h.inFlight
  rw [hsend] at hflight
  cases hs : s.receive with
  | waitForReceive =>
    rw [hs] at hflight
    cases hchannel : s.channel with
    | nil =>
      rw [hchannel] at hflight
      cases hflight
    | cons message channel => exact absurd (.receive hs hchannel) (hend _)
  | waitForInsert lastSize grid phases =>
    have hreceiving := h.receiving
    rw [hs] at hreceiving
    obtain ⟨start, L, L', leaked, hinserting, hformed, hsize, -⟩ := hreceiving
    by_cases hphases : ∀ b, phases b = .finished
    · obtain rfl : phases = fun _ => .finished := funext hphases
      exact absurd (.inserted hs) (hend _)
    · obtain ⟨b, hb⟩ := not_forall.mp hphases
      rcases hinserting.exists_step hsize hformed hb with hmemory | ⟨m, phase, hblock⟩
      · exact .inl ⟨⟨lastSize, grid, phases, b, hs, hmemory⟩, hinserting.exists_malloc_eq_none hmemory⟩
      · exact absurd (.insert hs (.mk hblock)) (hend _)
  | finished =>
    rw [hs] at hflight
    cases hchannel : s.channel with
    | nil => exact .inr ⟨hsend, rfl, rfl⟩
    | cons message channel =>
      rw [hchannel] at hflight
      cases hflight.1

/-- The state in the end: both tasks have run the same rounds, and the guard of the sender went to the receiver. -/
structure Exchanged (mapper : MappingDescription D) (maxSize i j : ℕ) (superCellIdx : ι → DataSpace D)
    (sender receiver : ParticlesBox D T α) (L L₀ : DataSpace D → List Ptr) (s : State ι D T α) : Prop where
  finished : s.send = .finished ∧ s.receive = .finished
  channel : s.channel = []
  sendRounds : s.sendRounds = guardParticles superCellIdx sender L / maxSize + 1
  receiveRounds : s.receiveRounds = s.sendRounds
  emptied : ∃ L', Linked s.sender.box L' ∧ ∀ b, L' (superCellIdx b) = []
  inserted : ∃ L', Linked s.receiver.box L' ∧
    ∀ c, s.receiver.box.contents (L' c) 1 = delivered mapper i j superCellIdx sender receiver L L₀ c

omit [DecidableEq ι] in
theorem Exchanging.exchanged {sender receiver : ParticlesBox D T α} {L L₀ : DataSpace D → List Ptr}
    (h : Exchanging M mapper maxSize i j superCellIdx (delivered mapper i j superCellIdx sender receiver L L₀)
      (guardParticles superCellIdx sender L) rest arrived sendSteps receiveSteps s)
    (hsend : s.send = .finished) (hreceive : s.receive = .finished) (hchannel : s.channel = []) :
    Exchanged mapper maxSize i j superCellIdx sender receiver L L₀ s := by
  have hsending := h.sending
  rw [hsend] at hsending
  obtain ⟨L', hL', hempty, hzero, -⟩ := hsending
  have hreceiving := h.receiving
  rw [hreceive] at hreceiving
  obtain ⟨⟨L₁, hL₁, harrived⟩, -⟩ := hreceiving
  refine ⟨⟨hsend, hreceive⟩, hchannel, ?_, ?_, ⟨L', hL', hempty⟩, L₁, hL₁, fun c => ?_⟩
  · obtain ⟨k, left, hrounds, hN, hleft⟩ := h.counted
    rw [hsend] at hleft
    have hlt : left < maxSize := hleft
    rw [hrounds, hN, Nat.mul_comm, Nat.mul_add_div (Nat.zero_lt_of_lt hlt), Nat.div_eq_of_lt hlt, Nat.add_zero]
  · have hrounds := h.rounds
    rw [hsend, hreceive, hchannel] at hrounds
    simp only [SendState.posted, ReceiveState.taken, List.length_nil] at hrounds
    omega
  · have hcontents := h.contents c
    rw [harrived c, hchannel, List.map_nil, List.sum_nil, add_zero] at hcontents
    rw [Finset.sum_eq_zero fun b _ => by rw [hzero b]; exact ite_self _, add_zero] at hcontents
    exact hcontents

def Ranked (M : MallocMC) (mapper : MappingDescription D) (maxSize i j : ℕ) (superCellIdx : ι → DataSpace D)
    (total : DataSpace D → Multiset α) (N : ℕ) (s : State ι D T α) (r : ℕ ×ₗ ℕ ×ₗ ℕ ×ₗ ℕ) : Prop :=
  ∃ rest arrived sendSteps receiveSteps,
    Exchanging M mapper maxSize i j superCellIdx total N rest arrived sendSteps receiveSteps s ∧
    rank maxSize N sendSteps receiveSteps s = r

theorem ranked_step (hT : T ≤ 65535) (hpos : 0 < maxSize) (hmax : maxSize < 2^31)
    (hfits : maxSize + Fintype.card ι * T < 2^32) (hinj : Function.Injective superCellIdx) (s s' : State ι D T α)
    (r : ℕ ×ₗ ℕ ×ₗ ℕ ×ₗ ℕ) (h : Ranked M mapper maxSize i j superCellIdx total N s r)
    (hstep : Step M mapper maxSize i j superCellIdx s s') :
    ∃ r' < r, Ranked M mapper maxSize i j superCellIdx total N s' r' := by
  obtain ⟨rest, arrived, sendSteps, receiveSteps, h, rfl⟩ := h
  obtain ⟨rest', arrived', sendSteps', receiveSteps', hnext, hlt⟩ := h.step hT hpos hmax hfits hinj hstep
  exact ⟨_, hlt, rest', arrived', sendSteps', receiveSteps', hnext, rfl⟩

/-- For every order of the steps, the exchange comes to an end, and every particle of the guard is then in the border
supercell of the neighbor that covers its supercell. -/
theorem exchange_spec (hD : D = 2 ∨ D = 3) {sender receiver : MappingDescription D} {origin origin' extent : DataSpace D}
    (hi : i ∈ ExchangeMapping.exchanges D) (hj : Mask.getMirroredExchangeType i = .ok j)
    (hguard : sender.guardingSuperCells = 1 ∧ receiver.guardingSuperCells = 1) (hborder : 1 ≤ receiver.borderSuperCells)
    (hgrid : ∀ d, 2 < receiver.gridSuperCells d)
    (hneighbors : ExchangeTarget.Neighbors sender receiver origin origin' extent i)
    (hinj : Function.Injective superCellIdx)
    (hrange : Set.range superCellIdx = (ExchangeMappingMethods.guard sender i).image)
    (hT : T ≤ 65535) (hpos : 1 ≤ maxSize) (hmax : maxSize < 2^31) (hcells : Fintype.card ι * T < 2^31)
    {m m' : Memory D T α} {L L' : DataSpace D → List Ptr} (hL : Linked m.box L) (hL' : Linked m'.box L')
    (M : MallocMC) :
    (∀ run : ℕ → State ι D T α, run 0 = start m m' →
      ¬ ∀ n, Step M receiver maxSize i j superCellIdx (run n) (run (n + 1))) ∧
    (∀ s, Relation.ReflTransGen (Step M receiver maxSize i j superCellIdx) (start m m') s →
      (∀ s', ¬ Step M receiver maxSize i j superCellIdx s s') →
      (OutOfMemory s ∧ ∃ k A, M.malloc k A = none) ∨
        Exchanged receiver maxSize i j superCellIdx m.box m'.box L L' s) ∧
    ∀ b, ExchangeTarget.dstSuperCell receiver (superCellIdx b) i j ∈ receiver.border ∧
      ∀ d, origin' d + (ExchangeTarget.dstSuperCell receiver (superCellIdx b) i j d - receiver.guardingSuperCells) ≡
        origin d + (superCellIdx b d - sender.guardingSuperCells) [ZMOD extent d] := by
  have hfits : maxSize + Fintype.card ι * T < 2^32 := by omega
  obtain ⟨sendSteps, hstart⟩ := exchanging_start hL hL' M receiver maxSize i j superCellIdx
  have hranked : Ranked M receiver maxSize i j superCellIdx (delivered receiver i j superCellIdx m.box m'.box L L')
      (guardParticles superCellIdx m.box L) (start m m') _ := ⟨_, _, _, _, hstart, rfl⟩
  refine ⟨fun run hrun => KernelLaunch.not_infinite (ranked_step hT hpos hmax hfits hinj) (hrun ▸ hranked),
    fun s hs hend => ?_, fun b => ?_⟩
  · obtain ⟨_, _, _, _, _, h, -⟩ := KernelLaunch.exists_rank (ranked_step hT hpos hmax hfits hinj) hs hranked
    exact (h.terminal hend).imp_right fun ⟨hsend, hreceive, hchannel⟩ => h.exchanged hsend hreceive hchannel
  · obtain rfl : Mask.mirrored i = j :=
      Except.ok.inj ((Mask.getMirroredExchangeType_eq hi.1 (ExchangeTarget.exchanges_lt hD hi)).symm.trans hj)
    obtain ⟨htarget, -, hcovers⟩ := ExchangeTarget.dstSuperCell_mirrored hD hi hguard hborder hgrid hneighbors
      (hrange ▸ Set.mem_range_self b)
    exact ⟨htarget, hcovers⟩

end Run

def freeFrame : ParticlesBox 2 3 ℕ where
  multiMask _ _ := 1
  attributes _ t := t
  previousFrame _ := none
  nextFrame _ := none
  firstFramePtr _ := none
  lastFramePtr _ := none
  mustShift _ := false
  sizeLastFrame _ := 0
  allocated := {0}
  attempts := 0

theorem freeFrame_linked : Linked freeFrame fun _ => [] :=
  ⟨fun _ => rfl, fun _ => rfl, fun c l p r he => by simp at he, fun c l p r he => by simp at he,
    fun _ => List.nodup_nil, fun c c' p hp => by simp at hp, fun c p hp => by simp at hp⟩

def leftDomain : MappingDescription 2 := ⟨![5, 3], 1, 1⟩

def rightDomain : MappingDescription 2 := ⟨![7, 3], 1, 1⟩

def leftMemory : Memory 2 3 ℕ := ⟨freeFrame.setAsLastFrame 0 ![4, 1], ExchangePush.empty 1, id⟩

def rightMemory : Memory 2 3 ℕ := ⟨freeFrame, ExchangePush.empty 1, id⟩

def leftLists : DataSpace 2 → List Ptr := Function.update (fun _ => []) ![4, 1] [0]

theorem leftMemory_linked : Linked leftMemory.box leftLists :=
  freeFrame_linked.setAsLastFrame (fun _ => List.not_mem_nil) (Finset.mem_singleton_self 0) ![4, 1]

theorem range_guard_right : Set.range (fun _ : Fin 1 => (![4, 1] : DataSpace 2)) =
    (ExchangeMappingMethods.guard leftDomain RIGHT).image := by
  rw [ExchangeMapping.guard_image]
  ext c
  constructor
  · rintro ⟨_, rfl⟩ d
    match d with
    | 0 => exact (by decide : (4 : ℤ) ≤ 4 ∧ (4 : ℤ) < 5)
    | 1 => exact (by decide : (1 : ℤ) ≤ 1 ∧ (1 : ℤ) < 2)
  · intro hc
    obtain ⟨h0, h1⟩ : (4 ≤ c 0 ∧ c 0 < 5) ∧ 1 ≤ c 1 ∧ c 1 < 2 := ⟨hc 0, hc 1⟩
    refine ⟨0, funext fun d => ?_⟩
    match d with
    | 0 => exact h0.1.antisymm (Int.le_of_lt_add_one h0.2)
    | 1 => exact h1.1.antisymm (Int.le_of_lt_add_one h1.2)

theorem guardParticles_left : guardParticles (fun _ : Fin 1 => ![4, 1]) leftMemory.box leftLists = 3 := by
  rw [guardParticles, Finset.sum_const, leftLists, Function.update_self]
  decide

/-- Three particles and a stack of two elements: both run a second round, and the particles go to the left border. -/
theorem exchange_spec_threeParticles :
    (∀ s, Relation.ReflTransGen (Step ParticlesBase.nextFree rightDomain 2 RIGHT LEFT fun _ : Fin 1 => ![4, 1])
        (start leftMemory rightMemory) s →
      (∀ s', ¬ Step ParticlesBase.nextFree rightDomain 2 RIGHT LEFT (fun _ => ![4, 1]) s s') →
      s.sendRounds = 2 ∧ s.receiveRounds = 2) ∧
    ExchangeTarget.dstSuperCell rightDomain ![4, 1] RIGHT LEFT ∈ rightDomain.border := by
  have hneighbors : ExchangeTarget.Neighbors leftDomain rightDomain 0 ![3, 0] 0 RIGHT :=
    ⟨by decide, fun d => congrArg (· % (0 : ℤ)) (by revert d; decide)⟩
  have hmirrored : Mask.getMirroredExchangeType RIGHT = .ok LEFT :=
    Mask.getMirroredExchangeType_eq (by decide) (by decide)
  have hlinked : Linked rightMemory.box fun _ => [] := freeFrame_linked
  obtain ⟨-, hspec, hborder⟩ := exchange_spec (.inl rfl) (by decide : 1 ≤ RIGHT ∧ RIGHT < numberOfExchanges 2) hmirrored
    ⟨rfl, rfl⟩ (by decide) (by decide) hneighbors (Function.injective_of_subsingleton _) range_guard_right (by decide)
    (by decide : 1 ≤ 2) (by norm_num) (by norm_num) leftMemory_linked hlinked ParticlesBase.nextFree
  refine ⟨fun s hs hend => ?_, (hborder 0).1⟩
  rcases hspec s hs hend with ⟨-, k, A, hnone⟩ | h
  · cases hnone
  · have hsend := h.sendRounds
    rw [guardParticles_left] at hsend
    exact ⟨hsend, h.receiveRounds.trans hsend⟩

end PIConGPU.ParticlesExchange
