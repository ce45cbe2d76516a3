import PIConGPU.Communicator

/-!
# Grid buffers and their exchanges

A `GridBuffer` owns one exchange per direction for sending and one for receiving. An exchange is
a box of cells, either a part of the buffer's own memory or memory of its own, together with the
tag of its messages. All buffers of a process share the set of registered tags.
-/
namespace PIConGPU

inductive AreaType
  | CORE
  | BORDER
  | GUARD
  deriving DecidableEq, Repr

/-- Local cells without the guard, and the width of the guard on each side. -/
structure GridLayout (D : ℕ) where
  dataSpace : DataSpace D
  guard : DataSpace D

def GridLayout.getDataSpace {D : ℕ} (layout : GridLayout D) : DataSpace D :=
  layout.dataSpace + layout.guard + layout.guard

namespace Mask

def getMirroredMask (m : Mask) : Except String Mask :=
  (List.range' 1 26).foldlM (fun tmp i =>
    if m.isSet i then (getMirroredExchangeType i).map fun ex => tmp.add (ofExchange ex) else .ok tmp) empty

end Mask

/-- The box of an exchange. Without an offset it is memory of its own. -/
structure ExchangeIntern (D : ℕ) where
  exchange : ℕ
  communicationTag : ℕ
  size : DataSpace D
  offset : Option (DataSpace D)

namespace ExchangeIntern

variable {D : ℕ}

def axisTypes (d : ℕ) : ℕ × ℕ := if d = 0 then (RIGHT, LEFT) else if d = 1 then (BOTTOM, TOP) else (BACK, FRONT)

def exchangeTypeToDim (D exchange : ℕ) : DataSpace D := fun d =>
  if (Mask.ofExchange exchange).containsExchangeType (axisTypes d).2 ∨
    (Mask.ofExchange exchange).containsExchangeType (axisTypes d).1 then 1 else 0

def exchangeTypeToOffset (exchange : ℕ) (memoryLayout : GridLayout D) (guardingCells : DataSpace D)
    (area : AreaType) : DataSpace D := fun d =>
  let size := memoryLayout.getDataSpace d
  let border := memoryLayout.guard d
  if (Mask.ofExchange exchange).containsExchangeType (axisTypes d).1 then
    size - border - guardingCells d + (if area = .GUARD then guardingCells d else 0)
  else
    border - (if area = .GUARD ∧ (Mask.ofExchange exchange).containsExchangeType (axisTypes d).2
      then guardingCells d else 0)

def ofBuffer (memoryLayout : GridLayout D) (guardingCells : DataSpace D) (exchange communicationTag : ℕ)
    (area : AreaType) : Except String (ExchangeIntern D) :=
  if ∃ d, memoryLayout.guard d < guardingCells d then
    .error "assert(!guardingCells.isOneDimensionGreaterThan(memoryLayout.getGuard()))"
  else .ok {
    exchange := exchange
    communicationTag := communicationTag
    size := fun d => if exchangeTypeToDim D exchange d = 1 then guardingCells d else memoryLayout.dataSpace d
    offset := some (exchangeTypeToOffset exchange memoryLayout guardingCells area) }

def ofDataSpace (exchangeDataSpace : DataSpace D) (exchange communicationTag : ℕ) : ExchangeIntern D :=
  ⟨exchange, communicationTag, exchangeDataSpace, none⟩

end ExchangeIntern

/-- The part of a buffer that exchanges depend on. `lastUsedCommunicationTag` is read only if
there is an exchange. -/
structure GridBuffer (D : ℕ) where
  gridLayout : GridLayout D
  hasOneExchange : Bool
  lastUsedCommunicationTag : ℕ
  sendMask : Mask
  receiveMask : Mask
  sendExchanges : ℕ → Option (ExchangeIntern D)
  receiveExchanges : ℕ → Option (ExchangeIntern D)
  maxExchange : ℕ

abbrev UniquTag := Finset ℕ

namespace UniquTag

/-- A tag that is not registered yet is registered. -/
def isTagUniqu (tags : UniquTag) (tag : ℕ) : Bool × UniquTag :=
  if tag ∈ tags then (false, tags) else (true, insert tag tags)

end UniquTag

namespace GridBuffer

variable {D : ℕ}

def init (gridLayout : GridLayout D) : GridBuffer D where
  gridLayout := gridLayout
  hasOneExchange := false
  lastUsedCommunicationTag := 0
  sendMask := .empty
  receiveMask := .empty
  sendExchanges _ := none
  receiveExchanges _ := none
  maxExchange := 0

/-- Tags are 32 bit wide and end with the direction. -/
def uniqCommunicationTag (communicationTag ex : ℕ) : ℕ := (communicationTag <<< 5 ||| ex) % 4294967296

abbrev Maker (D : ℕ) := (sendEx recvEx tag : ℕ) → Except String (ExchangeIntern D × ExchangeIntern D)

def setExchanges (buffer : GridBuffer D) (ex recvex : ℕ) (new : ExchangeIntern D × ExchangeIntern D) :
    GridBuffer D :=
  { buffer with
    hasOneExchange := true
    maxExchange := max (max buffer.maxExchange (ex + 1)) (recvex + 1)
    sendExchanges := Function.update buffer.sendExchanges ex (some new.1)
    receiveExchanges := Function.update buffer.receiveExchanges recvex (some new.2) }

section SetExchanges

variable (buffer : GridBuffer D) (ex recvex : ℕ) (new : ExchangeIntern D × ExchangeIntern D)

@[simp] theorem setExchanges_hasOneExchange : (buffer.setExchanges ex recvex new).hasOneExchange = true := rfl

@[simp] theorem setExchanges_sendExchanges_self :
    (buffer.setExchanges ex recvex new).sendExchanges ex = some new.1 := Function.update_self ..

@[simp] theorem setExchanges_receiveExchanges_self :
    (buffer.setExchanges ex recvex new).receiveExchanges recvex = some new.2 := Function.update_self ..

variable {ex recvex} {i : ℕ}

theorem setExchanges_sendExchanges_ne (h : i ≠ ex) :
    (buffer.setExchanges ex recvex new).sendExchanges i = buffer.sendExchanges i := Function.update_of_ne h ..

theorem setExchanges_receiveExchanges_ne (h : i ≠ recvex) :
    (buffer.setExchanges ex recvex new).receiveExchanges i = buffer.receiveExchanges i := Function.update_of_ne h ..

end SetExchanges

def addDirection (make : Maker D) (communicationTag : ℕ) (send : Mask) (st : UniquTag × GridBuffer D) (ex : ℕ) :
    Except String (UniquTag × GridBuffer D) :=
  if send.isSet ex then do
    let tag := uniqCommunicationTag communicationTag ex
    let checked := if st.2.hasOneExchange then (true, st.1) else st.1.isTagUniqu tag
    if checked.1 then
      if (st.2.sendExchanges ex).isSome then .error "Exchange already added!"
      else do
        let recvex ← Mask.getMirroredExchangeType ex
        let new ← make ex recvex tag
        .ok (checked.2, st.2.setExchanges ex recvex new)
    else .error (s!"unique exchange communication tag ({tag}) witch is created from communicationTag " ++
      s!"({communicationTag}) allready used for other gridbuffer exchange")
  else .ok st

/-- If received data goes to the guard, the border is sent, and the other way round. -/
def makeInBuffer (gridLayout : GridLayout D) (dataPlace : AreaType) (guardingCells : DataSpace D) : Maker D :=
  fun ex recvex tag => do
    let sendExchange ← ExchangeIntern.ofBuffer gridLayout guardingCells ex tag
      (if dataPlace = .GUARD then .BORDER else .GUARD)
    let receiveExchange ← ExchangeIntern.ofBuffer gridLayout guardingCells recvex tag
      (if dataPlace = .GUARD then .GUARD else .BORDER)
    .ok (sendExchange, receiveExchange)

def makeOwnMemory (dataSpace : DataSpace D) : Maker D := fun ex recvex tag =>
  .ok (.ofDataSpace dataSpace ex tag, .ofDataSpace dataSpace recvex tag)

/-- The part of both methods behind the check of the communication tag. -/
def addDirections (make : Maker D) (last : ℕ) (tags : UniquTag) (buffer : GridBuffer D) (receive : Mask)
    (communicationTag : ℕ) : Except String (UniquTag × GridBuffer D) := do
  let receiveMask := buffer.receiveMask.add receive
  let sendMask ← receiveMask.getMirroredMask
  let send ← receive.getMirroredMask
  (List.range' 1 (last - 1)).foldlM (addDirection make communicationTag send)
    (tags, { buffer with receiveMask := receiveMask, sendMask := sendMask })

def addExchange (tags : UniquTag) (buffer : GridBuffer D) (dataPlace : AreaType) (receive : Mask)
    (guardingCells : DataSpace D) (communicationTag : ℕ) : Except String (UniquTag × GridBuffer D) :=
  if buffer.hasOneExchange ∧ communicationTag ≠ buffer.lastUsedCommunicationTag then
    .error "It is not allowed to give the same GridBuffer different communicationTags"
  else
    addDirections (makeInBuffer buffer.gridLayout dataPlace guardingCells) (Communicator.exchangeEnd D) tags
      { buffer with lastUsedCommunicationTag := communicationTag } receive communicationTag

def addExchangeBuffer (tags : UniquTag) (buffer : GridBuffer D) (receive : Mask) (dataSpace : DataSpace D)
    (communicationTag : ℕ) : Except String (UniquTag × GridBuffer D) :=
  if buffer.hasOneExchange ∧ communicationTag ≠ buffer.lastUsedCommunicationTag then
    .error "It is not allowed to give the same GridBuffer different communicationTags"
  else
    let buffer := { buffer with lastUsedCommunicationTag := communicationTag }
    if ∏ d, dataSpace d ≠ 0 then
      addDirections (makeOwnMemory dataSpace) 27 tags buffer receive communicationTag
    else .ok (tags, buffer)

end GridBuffer

end PIConGPU
