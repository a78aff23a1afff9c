import NebulaX.Engine.MatchingEngine

/-!
# `NebulaX.Engine.Snapshot`: the book in a file

`OrderBook::saveSnapshot` writes a magic word and then the slots of all resting orders, 64 bytes
each with whatever links they have: bids before asks, best price first, each level from its head
to its tail. `OrderBook::loadSnapshot` reads the records back and gives each one to `addOrder`.

A file is its magic word and its whole records; a `write` or `read` that transfers a part of a
record is not modelled. As in `OrderBook`, a walk that does not end is `none`.
-/

set_option autoImplicit false

namespace NebulaX

/-- The contents of a snapshot file. -/
structure SnapshotFile where
  magic : UInt32
  records : List Order

/-- The word a snapshot starts with. -/
def snapshotMagic : UInt32 := 0x4E4253

/-- The two running maxima of both functions. -/
structure Maxima where
  maxSeq : UInt64 := 0
  maxId : UInt64 := 0

/-- `if (o.sequence > max_seq) …; if (o.order_id > max_id) …`. -/
def Maxima.see (m : Maxima) (o : Order) : Maxima where
  maxSeq := if m.maxSeq < o.sequence then o.sequence else m.maxSeq
  maxId := if m.maxId < o.orderId then o.orderId else m.maxId

namespace OrderBook

/-- The walk along one level in `saveSnapshot`, with what was written so far. -/
def saveLevel (storage : UInt32 → Order) :
    Nat → UInt32 → Maxima × List Order → Option (Maxima × List Order)
  | 0, _, _ => none
  | fuel + 1, idx, (m, records) =>
      if idx = uint32Max then some (m, records)
      else
        let o := storage idx
        saveLevel storage fuel o.nextIdx (m.see o, records ++ [o])

/-- The walk over the levels of one side in `saveSnapshot`. -/
def saveLevels (pool : OrderPool) :
    List (UInt32 × PriceLevel) → Maxima × List Order → Option (Maxima × List Order)
  | [], s => some s
  | (_, level) :: rest, s => do
      let s ← saveLevel pool.storage (pool.capacity + 1) level.headIdx s
      saveLevels pool rest s

/-- `OrderBook::saveSnapshot`, for a path that can be opened: the result and the file. -/
def saveSnapshot (b : OrderBook) : Option (UInt64 × SnapshotFile) := do
  let s ← saveLevels b.pool b.bids.entries ({}, [])
  let s ← saveLevels b.pool b.asks.entries s
  return (s.1.maxId, { magic := snapshotMagic, records := s.2 })

/-- The reading loop of `loadSnapshot`. An order that `addOrder` refuses is only logged. -/
def loadRecords : List Order → OrderBook × Maxima → Option (OrderBook × Maxima)
  | [], s => some s
  | o :: rest, (b, m) => do
      let o := { o with
        prevIdx := uint32Max, nextIdx := uint32Max, poolNextFree := uint32Max }
      let (_, b) ← b.addOrder o
      loadRecords rest (b, m.see o)

/-- `OrderBook::loadSnapshot`. The maxima are `max_seq_out` and `max_id_out`, and `none` is a
file that cannot be opened. -/
def loadSnapshot (b : OrderBook) (file : Option SnapshotFile) (out : Maxima) :
    Option (OrderBook × Maxima) :=
  match file with
  | none => some (b, out)
  | some file =>
      if file.magic ≠ snapshotMagic then some (b, out) else loadRecords file.records (b, out)

end OrderBook

namespace MatchingEngine

/-- `MatchingEngine::saveSnapshot`: the file afterwards. Without a book 0 it is not touched. -/
def saveSnapshot (e : MatchingEngine) (file : Option SnapshotFile) :
    Option (Option SnapshotFile) :=
  match e.books 0 with
  | none => some file
  | some _ => (e.book 0).saveSnapshot.map fun r => some r.2

/-- `MatchingEngine::loadSnapshot`. `book_for(0)` never fails. -/
def loadSnapshot (e : MatchingEngine) (file : Option SnapshotFile) : Option MatchingEngine := do
  let e ← e.bookFor 0
  let (b, m) ← (e.book 0).loadSnapshot file {}
  let e := e.putBook 0 b
  let e := { e with
    nextSequence := if 0 < m.maxSeq then m.maxSeq + 1 else e.nextSequence
    nextOrderId := if 0 < m.maxId then m.maxId + 1 else e.nextOrderId }
  return e.countPool

end MatchingEngine

end NebulaX
