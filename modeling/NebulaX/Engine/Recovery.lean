import NebulaX.Engine.MatchingEngine

/-!
# `NebulaX.Engine.Recovery`: rebuilding the books

`MatchingEngine::recoverFromWal`. It reads the log entry by entry and repeats what each one
says, with code of its own: no checks, no answers, and a skip for an order that already
rests. `none` means that the call does not return.

An entry has no time in force, and the entry of a replace carries the new reference only.

`MatchingEngine::recoverFromShared` finds the pool's array in shared memory and no books. It
puts all slots on the free list and adds every slot that looks like a resting order to book 0.
The array it scans is the one the new orders are written to.
-/

set_option autoImplicit false

namespace NebulaX

namespace MatchingEngine

/-- The order a `NEW` entry stands for. -/
def restored (entry : WalEntry) : Order where
  userId := entry.userId
  orderId := entry.orderId
  side := if entry.side = 0x01 then .buy else .sell
  price := entry.price
  originalQty := entry.quantity
  remainingQty := entry.quantity
  sequence := entry.walSeq
  status := .opened

/-- A `NEW` entry of an order that does not rest: match it, then rest what is left. The
result of `addOrder` is not looked at. -/
def replayNew (e : MatchingEngine) (locate : UInt64) (entry : WalEntry) :
    Option MatchingEngine := do
  let (e, order, _) ← e.matchSide locate (restored entry)
  if order.status = .opened ∨ order.status = .partiallyFilled then
    let (_, b) ← (e.book locate).addOrder order
    return e.putBook locate b
  else return e

/-- A partial cancel: nobody asks whose order it is. -/
def replayCancelShares (e : MatchingEngine) (locate : UInt64) (entry : WalEntry) :
    Option MatchingEngine := do
  match ← (e.book locate).findOrder entry.orderId with
  | none => return e
  | some idx =>
      if entry.quantity = 0 then return e
      else if (e.pool.storage idx).remainingQty ≤ entry.quantity then
        let b ← (e.book locate).removeOrder idx
        return e.putBook locate b
      else return e.putBook locate ((e.book locate).reduceQtyCancel idx entry.quantity)

/-- The entry of a replace: the order under the entry's reference is removed. -/
def replayReplace (e : MatchingEngine) (locate : UInt64) (entry : WalEntry) :
    Option MatchingEngine := do
  match ← (e.book locate).findOrder entry.orderId with
  | none => return e
  | some idx =>
      if (e.pool.storage idx).userId = entry.userId then
        let b ← (e.book locate).removeOrder idx
        return e.putBook locate b
      else return e

/-- The end of a round: the counters stay ahead of the numbers in the log. -/
def passEntry (e : MatchingEngine) (entry : WalEntry) : MatchingEngine :=
  { e with
    nextSequence := if e.nextSequence ≤ entry.walSeq then entry.walSeq + 1 else e.nextSequence
    nextOrderId := if e.nextOrderId ≤ entry.orderId then entry.orderId + 1 else e.nextOrderId }

/-- One round of the loop of `recoverFromWal`. -/
def replayEntry (e : MatchingEngine) (entry : WalEntry) : Option MatchingEngine :=
  let locate := entry.locate.toUInt64
  match e.bookFor locate with
  | none => some e
  | some e =>
      if entry.type = 0x01 then do
        match ← (e.book locate).findOrder entry.orderId with
        | some _ => return e  -- `continue` passes over the counters too
        | none =>
            let e ← e.replayNew locate entry
            return e.passEntry entry
      else if entry.type = 0x02 then do
        let (_, b) ← (e.book locate).removeOrderById entry.orderId entry.userId
        return (e.putBook locate b).passEntry entry
      else if entry.type = 0x03 then do
        let e ← e.replayCancelShares locate entry
        return e.passEntry entry
      else if entry.type = 0x04 then do
        let e ← e.replayReplace locate entry
        return e.passEntry entry
      else some (e.passEntry entry)

/-- The loop of `recoverFromWal`, `k` rounds from entry `i` on. -/
def replayLoop (reader : WalReader) : Nat → Nat → MatchingEngine → Option MatchingEngine
  | 0, _, e => some e
  | k + 1, i, e =>
      match reader.entryAt i with
      | none => some e
      | some entry => do
          let e ← e.replayEntry entry
          replayLoop reader k (i + 1) e

/-- `MatchingEngine::recoverFromWal`. `none` is a log that cannot be opened. -/
def recoverFromWal (e : MatchingEngine) (reader : Option WalReader) : Option MatchingEngine :=
  match reader with
  | none => some e
  | some reader => do
      let e ← replayLoop reader (min reader.count walEntries) 0 e
      return e.countPool

/-! ### Shared memory -/

/-- The end of a round of `recoverFromShared`: the counters stay ahead of the numbers of the
order `o`. -/
def passOrder (e : MatchingEngine) (o : Order) : MatchingEngine :=
  { e with
    nextOrderId := if e.nextOrderId ≤ o.orderId then o.orderId + 1 else e.nextOrderId
    nextSequence := if e.nextSequence ≤ o.sequence then o.sequence + 1 else e.nextSequence }

/-- One round of the loop of `recoverFromShared`, for slot `i`. Whether `addOrder` took the
order is only counted for the log. -/
def recoverSlot (e : MatchingEngine) (i : UInt32) : Option MatchingEngine :=
  let o := e.pool.storage i
  if o.orderId = 0 then some e
  else if o.status = .filled ∨ o.status = .cancelled then some e
  else do
    let (_, b) ← (e.book 0).addOrder { o with prevIdx := uint32Max, nextIdx := uint32Max }
    let e := e.putBook 0 b
    -- `o` is a reference: the counters read the slot as it is after `addOrder`.
    return e.passOrder (e.pool.storage i)

/-- The loop of `recoverFromShared`, `k` rounds from slot `i` on. -/
def recoverSlots : Nat → Nat → MatchingEngine → Option MatchingEngine
  | 0, _, e => some e
  | k + 1, i, e => do
      let e ← e.recoverSlot (UInt32.ofNat i)
      recoverSlots k (i + 1) e

/-- `MatchingEngine::recoverFromShared`. `storage` is the array of the engine's own pool, as
`main` passes it. `book_for(0)` never fails. -/
def recoverFromShared (e : MatchingEngine) (capacity : Nat) : Option MatchingEngine := do
  let e ← { e with pool := e.pool.rebuildFreelist }.bookFor 0
  let e ← recoverSlots capacity 0 e
  return e.countPool

end MatchingEngine

end NebulaX
