import NebulaX.Engine.OrderMap
import NebulaX.Engine.OrderPool

/-!
# `NebulaX.Engine.OrderBook`: one book over the shared pool and index

`order_book.cpp`. A book owns its two level maps and points to a pool and an index. In
split-book mode all books of an engine share one pool and one index, so the book's own
data, `BookLevels`, is separate from the `OrderBook` the operations work on: the levels
of one book together with the pool and the index its pointers lead to.

`addOrder`, `removeOrder` and the best-order scan walk chains, in the index or in a level.
As in `OrderMap`, a walk that does not end is `none`.
-/

set_option autoImplicit false

namespace NebulaX

open NebulaX.Lib

/-- What one book owns: `bids_` and `asks_`. -/
structure BookLevels where
  bids : LevelMap .bid := .empty
  asks : LevelMap .ask := .empty

/-- `class OrderBook`: its levels, and the pool and the index it points to. -/
structure OrderBook extends BookLevels where
  pool : OrderPool
  index : OrderMap

namespace BookLevels

/-- The level map of a side. -/
def levels (b : BookLevels) : (d : BookSide) → LevelMap d
  | .bid => b.bids
  | .ask => b.asks

/-- Replace the level map of a side. -/
def setLevels (b : BookLevels) : (d : BookSide) → LevelMap d → BookLevels
  | .bid, m => { b with bids := m }
  | .ask, m => { b with asks := m }

end BookLevels

namespace OrderBook

/-- Replace the level map of a side. -/
def setLevels (b : OrderBook) (d : BookSide) (m : LevelMap d) : OrderBook :=
  { b with toBookLevels := b.toBookLevels.setLevels d m }

/-- `bids_[price]` or `asks_[price]`: a missing level is created empty. -/
def levelAt (b : OrderBook) (d : BookSide) (price : UInt32) : PriceLevel :=
  ((b.levels d).find? price).getD {}

/-- Store a level at its price. -/
def putLevel (b : OrderBook) (d : BookSide) (price : UInt32) (level : PriceLevel) :
    OrderBook :=
  b.setLevels d ((b.levels d).insert price level)

/-- Write one slot of the book's pool. -/
def modifyOrder (b : OrderBook) (idx : UInt32) (f : Order → Order) : OrderBook :=
  { b with pool := b.pool.modify idx f }

/-- The linking part of `addOrder`: the new slot `idx`, already a copy of the order, goes
to the tail of its level. -/
def linkTail (b : OrderBook) (d : BookSide) (price : UInt32) (idx : UInt32)
    (remaining : UInt32) : OrderBook :=
  let level := b.levelAt d price
  if level.count = 0 then
    (b.modifyOrder idx fun o => { o with prevIdx := uint32Max, nextIdx := uint32Max }).putLevel
      d price { headIdx := idx, tailIdx := idx, count := level.count + 1,
                totalQty := level.totalQty + remaining }
  else
    ((b.modifyOrder idx fun o =>
        { o with prevIdx := level.tailIdx, nextIdx := uint32Max }).modifyOrder level.tailIdx
      fun o => { o with nextIdx := idx }).putLevel
      d price { headIdx := level.headIdx, tailIdx := idx, count := level.count + 1,
                totalQty := level.totalQty + remaining }

/-- `OrderBook::addOrder`. The Boolean is its result. The result of `index_->insert` is
not looked at. -/
def addOrder (b : OrderBook) (order : Order) : Option (Bool × OrderBook) :=
  if order.side = .invalid then some (false, b)
  else
    match b.pool.allocate with
    | (none, _) => some (false, b)
    | (some idx, pool) => do
        let b := ({ b with pool := pool }.modifyOrder idx fun _ => order).linkTail
          order.side.bookSide order.price idx order.remainingQty
        let (_, index) ← b.index.insert order.orderId idx
        return (true, { b with index := index })

/-- Take `amount` off the level at a price. -/
def reduceLevel (b : OrderBook) (d : BookSide) (price amount : UInt32) : OrderBook :=
  let level := b.levelAt d price
  b.putLevel d price { level with totalQty := level.totalQty - amount }

/-- `OrderBook::reduceOrderQty`: a trade. -/
def reduceOrderQty (b : OrderBook) (idx : UInt32) (amount : UInt32) : OrderBook :=
  let b := b.modifyOrder idx fun o =>
    { o with remainingQty := o.remainingQty - amount, filledQty := o.filledQty + amount }
  let o := b.pool.storage idx
  b.reduceLevel o.side.bookSide o.price amount

/-- `OrderBook::reduceQtyCancel`: a partial cancel, which is not a trade. -/
def reduceQtyCancel (b : OrderBook) (idx : UInt32) (amount : UInt32) : OrderBook :=
  let b := b.modifyOrder idx fun o => { o with remainingQty := o.remainingQty - amount }
  let o := b.pool.storage idx
  b.reduceLevel o.side.bookSide o.price amount

/-- The unlinking part of `removeOrder`: the neighbours of slot `idx` are joined. Each
step reads the slot again, as the source does. -/
def unlink (b : OrderBook) (idx : UInt32) : OrderBook :=
  let b₁ :=
    let o := b.pool.storage idx
    if o.prevIdx ≠ uint32Max then
      b.modifyOrder o.prevIdx fun p => { p with nextIdx := o.nextIdx }
    else b
  let o := b₁.pool.storage idx
  if o.nextIdx ≠ uint32Max then
    b₁.modifyOrder o.nextIdx fun n => { n with prevIdx := o.prevIdx }
  else b₁

/-- The level after slot `idx`, holding `o`, left it. -/
def levelWithout (level : PriceLevel) (idx : UInt32) (o : Order) : PriceLevel where
  headIdx := if level.headIdx = idx then o.nextIdx else level.headIdx
  tailIdx := if level.tailIdx = idx then o.prevIdx else level.tailIdx
  count := level.count - 1
  totalQty := level.totalQty - o.remainingQty

/-- The body of `removeOrder(Order*)`, with `d` the side of the order. A slot whose price
has no level on that side of this book is left where it is. -/
def removeFrom (b : OrderBook) (d : BookSide) (idx : UInt32) : Option OrderBook :=
  match (b.levels d).find? (b.pool.storage idx).price with
  | none => some b
  | some level =>
      let b := b.unlink idx
      let o := b.pool.storage idx
      let level := levelWithout level idx o
      let b :=
        if level.count = 0 then b.setLevels d ((b.levels d).erase o.price)
        else b.putLevel d o.price level
      do
        let index ← b.index.erase o.orderId
        return { b with index := index, pool := b.pool.deallocate idx }

/-- `OrderBook::removeOrder(Order*)`. -/
def removeOrder (b : OrderBook) (idx : UInt32) : Option OrderBook :=
  b.removeFrom (b.pool.storage idx).side.bookSide idx

/-- `OrderBook::findOrder`. -/
def findOrder (b : OrderBook) (orderId : UInt64) : Option (Option UInt32) :=
  b.index.find orderId

/-- `OrderBook::removeOrder(order_id, user_id)`. -/
def removeOrderById (b : OrderBook) (orderId userId : UInt64) : Option (Bool × OrderBook) := do
  match ← b.index.find orderId with
  | none => return (false, b)
  | some idx =>
      if (b.pool.storage idx).userId ≠ userId then return (false, b)
      else
        let b ← b.removeOrder idx
        return (true, b)

/-- The walk along one level in `getBestBid` and `getBestAsk`: the first order of another
user. -/
def scanLevel (storage : UInt32 → Order) (excludeUserId : UInt64) :
    Nat → UInt32 → Option (Option UInt32)
  | 0, _ => none
  | fuel + 1, idx =>
      if idx = uint32Max then some none
      else if (storage idx).userId ≠ excludeUserId then some (some idx)
      else scanLevel storage excludeUserId fuel (storage idx).nextIdx

/-- The walk over the levels, best price first. -/
def scanLevels (pool : OrderPool) (excludeUserId : UInt64) :
    List (UInt32 × PriceLevel) → Option (Option UInt32)
  | [] => some none
  | (_, level) :: rest => do
      match ← scanLevel pool.storage excludeUserId (pool.capacity + 1) level.headIdx with
      | some idx => return some idx
      | none => scanLevels pool excludeUserId rest

/-- The common body of `getBestBid` and `getBestAsk`. With no user to exclude it looks at
the first level only. -/
def getBest (b : OrderBook) (d : BookSide) (excludeUserId : UInt64) :
    Option (Option UInt32) :=
  match (b.levels d).entries with
  | [] => some none
  | (price, level) :: rest =>
      if excludeUserId = 0 then
        some (if level.count = 0 then none else some level.headIdx)
      else scanLevels b.pool excludeUserId ((price, level) :: rest)

/-- `OrderBook::getBestBid`. -/
def getBestBid (b : OrderBook) (excludeUserId : UInt64) : Option (Option UInt32) :=
  b.getBest .bid excludeUserId

/-- `OrderBook::getBestAsk`. -/
def getBestAsk (b : OrderBook) (excludeUserId : UInt64) : Option (Option UInt32) :=
  b.getBest .ask excludeUserId

/-- The walk along one level in `availableQty`. -/
def sumLevel (storage : UInt32 → Order) : Nat → UInt32 → UInt32 → Option UInt32
  | 0, _, _ => none
  | fuel + 1, idx, total =>
      if idx = uint32Max then some total
      else sumLevel storage fuel (storage idx).nextIdx (total + (storage idx).remainingQty)

/-- The walk over the levels in `availableQty`, up to the first one that is worse than
`price`. -/
def sumLevels (pool : OrderPool) (d : BookSide) (price : UInt32) :
    List (UInt32 × PriceLevel) → UInt32 → Option UInt32
  | [], total => some total
  | (p, level) :: rest, total =>
      if d.Better price p then some total
      else do
        let total ← sumLevel pool.storage (pool.capacity + 1) level.headIdx total
        sumLevels pool d price rest total

/-- `OrderBook::availableQty`: what the other side of the book offers at `price` or
better, own orders of the asking user included. -/
def availableQty (b : OrderBook) (side : Side) (price : UInt32) : Option UInt32 :=
  if side = .buy then sumLevels b.pool .ask price b.asks.entries 0
  else sumLevels b.pool .bid price b.bids.entries 0

/-- The best price and its volume on one side. -/
def topLevel {d : BookSide} (m : LevelMap d) : UInt32 × UInt32 :=
  match m.entries with
  | [] => (0, 0)
  | (price, level) :: _ => (price, level.totalQty)

/-- `OrderBook::getTopOfBook`. -/
def getTopOfBook (b : BookLevels) : TopOfBook where
  bidPrice := (topLevel b.bids).1
  bidVolume := (topLevel b.bids).2
  askPrice := (topLevel b.asks).1
  askVolume := (topLevel b.asks).2

end OrderBook

end NebulaX
