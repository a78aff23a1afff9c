import NebulaX.Engine.OrderBook
import NebulaX.Engine.Protocol

/-!
# `NebulaX.Engine.MatchingEngine`: the engine and its operations

`matching_engine.cpp`: up to `kMaxLocate` books over one pool and one index, the matching
loop, and the operations `processAdd`, `processCancel`, `processCancelShares`,
`processReplace` and `getBook`. An operation takes the engine and returns the engine after
the call together with the responses it appended to `out`. `none` means that the call
does not return.

`matchBuyOrder` and `matchSellOrder` are one loop in two hand-written copies. `matchLoop`
is that loop, with the side of the *resting* orders as its parameter, and the two names
are its two instances.

`metrics_`, `wal_` and `trade_pool_` are optional, as the pointers of the source are. The
two `static uint64_t trade_id` of the matching functions are the fields `buyTradeId` and
`sellTradeId`.
-/

set_option autoImplicit false

namespace NebulaX

/-- `class MatchingEngine`. -/
structure MatchingEngine where
  books : UInt64 → Option BookLevels
  pool : OrderPool
  index : OrderMap
  nextOrderId : UInt64
  nextSequence : UInt64
  metrics : Option IOCounters
  wal : Option WalWriter
  tradePool : Option TradePool
  buyTradeId : UInt64
  sellTradeId : UInt64

namespace MatchingEngine

/-- `kMaxLocate`. -/
def kMaxLocate : UInt64 := 65536

/-- `MatchingEngine::MatchingEngine(pool_capacity)`, with what `main` attaches to it. -/
def ofCapacity (capacity : Nat) (metrics : Option IOCounters) (wal : Option WalWriter)
    (tradePool : Option TradePool) : Option MatchingEngine := do
  let index ← OrderMap.ofCapacity capacity
  return { books := fun _ => none
           pool := .ofCapacity capacity
           index := index
           nextOrderId := 1
           nextSequence := 1
           metrics := metrics
           wal := wal
           tradePool := tradePool
           buyTradeId := 0
           sellTradeId := 0 }

/-- `MatchingEngine::MatchingEngine(external_pool)`: an engine with no books over a pool that
exists already. -/
def ofPool (pool : OrderPool) (metrics : Option IOCounters) (wal : Option WalWriter)
    (tradePool : Option TradePool) : Option MatchingEngine := do
  let index ← OrderMap.ofCapacity pool.capacity
  return { books := fun _ => none
           pool := pool
           index := index
           nextOrderId := 1
           nextSequence := 1
           metrics := metrics
           wal := wal
           tradePool := tradePool
           buyTradeId := 0
           sellTradeId := 0 }

/-! ### Books, counters, the log -/

/-- `MatchingEngine::book_for`: the engine in which the book exists, or `none` for a
locate out of range. -/
def bookFor (e : MatchingEngine) (locate : UInt64) : Option MatchingEngine :=
  if kMaxLocate ≤ locate then none
  else match e.books locate with
    | some _ => some e
    | none => some { e with books := Function.update e.books locate (some {}) }

/-- The levels of the book of a locate; a book not built yet is empty. -/
def levelsOf (e : MatchingEngine) (locate : UInt64) : BookLevels :=
  (e.books locate).getD {}

/-- The book of a locate over the shared pool and index. -/
def book (e : MatchingEngine) (locate : UInt64) : OrderBook where
  toBookLevels := e.levelsOf locate
  pool := e.pool
  index := e.index

/-- The engine after an operation on the book of a locate. -/
def putBook (e : MatchingEngine) (locate : UInt64) (b : OrderBook) : MatchingEngine :=
  { e with
    books := Function.update e.books locate (some b.toBookLevels)
    pool := b.pool
    index := b.index }

/-- `if (metrics_) …`. -/
def count (e : MatchingEngine) (f : IOCounters → IOCounters) : MatchingEngine :=
  { e with metrics := e.metrics.map f }

/-- `metrics_->order_pool_used = book->poolUsage()`. -/
def countPool (e : MatchingEngine) : MatchingEngine :=
  e.count fun c => { c with orderPoolUsed := e.pool.size }

/-- `if (wal_) wal_->append(e)`. -/
def log (e : MatchingEngine) (entry : WalEntry) : MatchingEngine :=
  { e with wal := e.wal.map (·.append entry) }

/-- Answer with an error and nothing else. -/
def reject (e : MatchingEngine) (code : ErrorCode) :
    MatchingEngine × List BinaryResponse :=
  (e.count fun c => { c with errors := c.errors + 1 }, [.error code])

/-- `MatchingEngine::canFullFill`. -/
def canFullFill (b : OrderBook) (side : Side) (price quantity : UInt32) : Option Bool := do
  let available ← b.availableQty side price
  return decide (quantity ≤ available)

/-! ### The matching loop -/

/-- What the matching loop changes. -/
structure MatchState where
  book : OrderBook
  /-- The incoming order. -/
  order : Order
  out : List BinaryResponse
  metrics : Option IOCounters
  tradePool : Option TradePool
  tradeId : UInt64

/-- The test that ends the loop: the best resting price lies beyond the incoming limit.
`order.price < best_ask->price` for a buy, `order.price > best_bid->price` for a sell. -/
def Beyond (d : BookSide) (limit price : UInt32) : Prop := d.Better limit price

instance (d : BookSide) (limit price : UInt32) : Decidable (Beyond d limit price) :=
  inferInstanceAs (Decidable (d.Better limit price))

/-- The record of a trade. `order` comes in, `best` rests on side `d`. -/
def tradeEntry (d : BookSide) (order best : Order) (quantity : UInt32) (tradeId seq : UInt64) :
    TradeEntry :=
  match d with
  | .ask =>
      { tradeId := tradeId, buyOrderId := order.orderId, sellOrderId := best.orderId
        price := best.price, quantity := quantity
        buyerId := order.userId, sellerId := best.userId, seq := seq }
  | .bid =>
      { tradeId := tradeId, buyOrderId := best.orderId, sellOrderId := order.orderId
        price := best.price, quantity := quantity
        buyerId := best.userId, sellerId := order.userId, seq := seq }

/-- The end of a round: a resting order with nothing left leaves the book. -/
def settle (b : OrderBook) (best : UInt32) : Option OrderBook :=
  if (b.pool.storage best).remainingQty = 0 then
    (b.modifyOrder best fun o => { o with status := .filled }).removeOrder best
  else some (b.modifyOrder best fun o => { o with status := .partiallyFilled })

/-- One round of the loop: trade with the resting order in slot `best`. -/
def fill (d : BookSide) (locate seq : UInt64) (best : UInt32) (st : MatchState) :
    Option MatchState := do
  let tradeQty := min st.order.remainingQty (st.book.pool.storage best).remainingQty
  let order := { st.order with
    remainingQty := st.order.remainingQty - tradeQty
    filledQty := st.order.filledQty + tradeQty }
  let book := st.book.reduceOrderQty best tradeQty
  let maker := book.pool.storage best
  let rsp : Trade :=
    { locate := locate, orderRef := maker.orderId, side := d.side
      price := maker.price, quantity := tradeQty }
  let entry := tradeEntry d order maker tradeQty (st.tradeId + 1) seq
  let book ← settle book best
  return {
    book := book
    order := { order with
      status := if order.remainingQty = 0 then .filled else .partiallyFilled }
    out := st.out ++ [.trade rsp]
    metrics := st.metrics.map fun c => { c with trades := c.trades + 1 }
    tradePool := st.tradePool.map (·.record entry)
    tradeId := if st.tradePool.isSome then st.tradeId + 1 else st.tradeId }

/-- The loop of `matchBuyOrder` and `matchSellOrder`; `d` is the side it takes from. A
round either uses the incoming order up or takes a resting order off the book, so a pool
of `capacity` slots allows `capacity` rounds. -/
def matchLoop (d : BookSide) (locate seq : UInt64) : Nat → MatchState → Option MatchState
  | 0, _ => none
  | fuel + 1, st =>
      if st.order.remainingQty = 0 then some st
      else do
        match ← st.book.getBest d st.order.userId with
        | none => return st
        | some best =>
            if Beyond d st.order.price (st.book.pool.storage best).price then return st
            else
              let st ← fill d locate seq best st
              matchLoop d locate seq fuel st

/-- The trade counter of the matching function that takes from side `d`. -/
def tradeId (e : MatchingEngine) : BookSide → UInt64
  | .ask => e.buyTradeId
  | .bid => e.sellTradeId

/-- The engine after the matching loop. -/
def afterMatch (e : MatchingEngine) (d : BookSide) (locate : UInt64) (st : MatchState) :
    MatchingEngine :=
  { e.putBook locate st.book with
    metrics := st.metrics
    tradePool := st.tradePool
    buyTradeId := match d with | .ask => st.tradeId | .bid => e.buyTradeId
    sellTradeId := match d with | .ask => e.sellTradeId | .bid => st.tradeId }

/-- Run the matching loop against side `d` of a book. The results are the engine, the
incoming order as the loop left it, and the trades. -/
def matchOrder (d : BookSide) (e : MatchingEngine) (locate : UInt64) (order : Order) :
    Option (MatchingEngine × Order × List BinaryResponse) := do
  let st ← matchLoop d locate e.nextSequence (e.pool.capacity + 1)
    { book := e.book locate, order := order, out := [], metrics := e.metrics
      tradePool := e.tradePool, tradeId := e.tradeId d }
  return (e.afterMatch d locate st, st.order, st.out)

/-- `MatchingEngine::matchBuyOrder`. -/
def matchBuyOrder (e : MatchingEngine) (locate : UInt64) (order : Order) :
    Option (MatchingEngine × Order × List BinaryResponse) :=
  matchOrder .ask e locate order

/-- `MatchingEngine::matchSellOrder`. -/
def matchSellOrder (e : MatchingEngine) (locate : UInt64) (order : Order) :
    Option (MatchingEngine × Order × List BinaryResponse) :=
  matchOrder .bid e locate order

/-- The dispatch all callers use: `side == Side::BUY` or else sell. -/
def matchSide (e : MatchingEngine) (locate : UInt64) (order : Order) :
    Option (MatchingEngine × Order × List BinaryResponse) :=
  if order.side = .buy then e.matchBuyOrder locate order
  else e.matchSellOrder locate order

/-! ### The operations -/

/-- Rest what is left of an order and answer `RSP_OK`, or `POOL_FULL` when `addOrder`
refuses it. `out` holds the trades so far. -/
def restOrder (e : MatchingEngine) (locate : UInt64) (order : Order)
    (out : List BinaryResponse) : Option (MatchingEngine × List BinaryResponse) := do
  let (added, b) ← (e.book locate).addOrder order
  let e := e.putBook locate b
  if added then return (e.countPool, out ++ [.ok order.orderId])
  else
    return ((e.count fun c => { c with errors := c.errors + 1 }).countPool,
      out ++ [.error .poolFull])

/-- Whether an order is a market order: IOC or FOK with price 0. -/
def isMarket (tif : OrderTif) (price : UInt32) : Bool :=
  (tif == .ioc || tif == .fok) && price == 0

/-- The price an order is matched with: a market order carries the extreme price of its
side. -/
def limitPrice (tif : OrderTif) (side : Side) (price : UInt32) : UInt32 :=
  if isMarket tif price then (if side = .buy then uint32Max else 0) else price

/-- The incoming order `processAdd` and `processReplace` build. -/
def newOrder (e : MatchingEngine) (orderRef : UInt64) (side : Side) (price quantity : UInt32)
    (userId : UInt64) : Order where
  userId := userId
  orderId := orderRef
  side := side
  price := price
  originalQty := quantity
  remainingQty := quantity
  filledQty := 0
  sequence := e.nextSequence
  status := .opened

/-- `next_sequence_.fetch_add(1)`, the state part. -/
def bumpSequence (e : MatchingEngine) : MatchingEngine :=
  { e with nextSequence := e.nextSequence + 1 }

/-- What `processAdd` does with the order the matching loop left. -/
def finishAdd (e : MatchingEngine) (locate : UInt64) (order : Order) (quantity : UInt32)
    (tif : OrderTif) (out : List BinaryResponse) :
    Option (MatchingEngine × List BinaryResponse) :=
  if order.status = .filled then some (e.countPool, out ++ [.filled order.orderId])
  else if tif = .ioc then
    if order.filledQty = 0 then
      some (e.count fun c => { c with errors := c.errors + 1 }, out ++ [.error .mktNoLiquidity])
    else some (e, out)
  else if tif = .fok then
    if order.filledQty < quantity then
      some (e.count fun c => { c with errors := c.errors + 1 }, out ++ [.error .fokNoFullFill])
    else some (e, out)
  else if order.status = .opened ∨ order.status = .partiallyFilled then
    e.restOrder locate order out
  else some (e, out)

/-- The part of `processAdd` from its checks to the end of the matching loop: draw a
sequence number, log, match. -/
def submitAdd (e : MatchingEngine) (locate orderRef : UInt64) (side : Side)
    (price quantity : UInt32) (userId : UInt64) (tif : OrderTif) :
    Option (MatchingEngine × Order × List BinaryResponse) :=
  let order := e.newOrder orderRef side (limitPrice tif side price) quantity userId
  let e := e.bumpSequence
  let e := e.log
    { type := 0x01, side := if side = .buy then 0x01 else 0x02, locate := locate.toUInt16
      price := order.price, quantity := quantity, userId := userId, orderId := orderRef
      walSeq := e.nextSequence }
  e.matchSide locate order

/-- The part of `processAdd` after its checks. -/
def addChecked (e : MatchingEngine) (locate orderRef : UInt64) (side : Side)
    (price quantity : UInt32) (userId : UInt64) (tif : OrderTif) :
    Option (MatchingEngine × List BinaryResponse) := do
  let (e, order, out) ← e.submitAdd locate orderRef side price quantity userId tif
  e.finishAdd locate order quantity tif out

/-- `MatchingEngine::processAdd`. -/
def processAdd (e : MatchingEngine) (locate orderRef : UInt64) (side : Side)
    (price quantity : UInt32) (userId : UInt64) (tif : OrderTif) :
    Option (MatchingEngine × List BinaryResponse) :=
  let e := e.count fun c => { c with newOrders := c.newOrders + 1 }
  match e.bookFor locate with
  | none => some (e.reject .invalidCommandType)
  | some e =>
      if side = .invalid then some (e.reject .invalidSide)
      else if (!isMarket tif price && price == 0) || quantity == 0 || userId == 0
          || orderRef == 0 then
        some (e.reject .invalidPriceQtyUser)
      else if tif = .fok then do
        if ← canFullFill (e.book locate) side (limitPrice tif side price) quantity then
          e.addChecked locate orderRef side price quantity userId tif
        else return e.reject .fokNoFullFill
      else e.addChecked locate orderRef side price quantity userId tif

/-- `MatchingEngine::processCancel`. -/
def processCancel (e : MatchingEngine) (locate orderRef userId : UInt64) :
    Option (MatchingEngine × List BinaryResponse) :=
  let e := e.count fun c => { c with cancels := c.cancels + 1 }
  match e.bookFor locate with
  | none => some (e.reject .orderNotFound)
  | some e => do
      let e := e.log { type := 0x02, locate := locate.toUInt16, userId := userId
                       orderId := orderRef, walSeq := e.nextSequence }
      let (removed, b) ← (e.book locate).removeOrderById orderRef userId
      let e := e.putBook locate b
      if removed then return (e, [.cancelled orderRef])
      else return e.reject .orderNotFound

/-- `MatchingEngine::processCancelShares`. -/
def processCancelShares (e : MatchingEngine) (locate orderRef : UInt64) (shares : UInt32)
    (userId : UInt64) : Option (MatchingEngine × List BinaryResponse) :=
  let e := e.count fun c => { c with cancels := c.cancels + 1 }
  match e.bookFor locate with
  | none => some (e.reject .orderNotFound)
  | some e => do
      let e := e.log { type := 0x03, locate := locate.toUInt16, quantity := shares
                       userId := userId, orderId := orderRef, walSeq := e.nextSequence }
      match ← (e.book locate).findOrder orderRef with
      | none => return e.reject .orderNotFound
      | some idx =>
          if (e.pool.storage idx).userId ≠ userId then return e.reject .orderNotFound
          else if (e.pool.storage idx).remainingQty ≤ shares then
            let b ← (e.book locate).removeOrder idx
            return (e.putBook locate b, [.cancelled orderRef])
          else
            return (e.putBook locate ((e.book locate).reduceQtyCancel idx shares),
              [.ok orderRef])

/-- What `processReplace` does with the order the matching loop left. -/
def finishReplace (e : MatchingEngine) (locate : UInt64) (order : Order)
    (out : List BinaryResponse) : Option (MatchingEngine × List BinaryResponse) :=
  if order.status = .opened ∨ order.status = .partiallyFilled then
    e.restOrder locate order out
  else if order.status = .filled then some (e, out ++ [.filled order.orderId])
  else some (e, out)

/-- The part of `processReplace` from the removal of the old order, in slot `idx`, to the
end of the matching loop. The new order is owned by `new_ref`, not by `user_id`. -/
def submitReplace (e : MatchingEngine) (locate : UInt64) (idx : UInt32) (newRef : UInt64)
    (side : Side) (price quantity : UInt32) :
    Option (MatchingEngine × Order × List BinaryResponse) := do
  let b ← (e.book locate).removeOrder idx
  let e := e.putBook locate b
  let order := e.newOrder newRef side price quantity newRef
  e.bumpSequence.matchSide locate order

/-- `MatchingEngine::processReplace`. -/
def processReplace (e : MatchingEngine) (locate oldRef newRef : UInt64) (side : Side)
    (price quantity : UInt32) (userId : UInt64) :
    Option (MatchingEngine × List BinaryResponse) :=
  let e := e.count fun c => { c with cancels := c.cancels + 1 }
  match e.bookFor locate with
  | none => some (e.reject .orderNotFound)
  | some e => do
      let e := e.log { type := 0x04, locate := locate.toUInt16, price := price
                       quantity := quantity, userId := userId, orderId := newRef
                       walSeq := e.nextSequence }
      match ← (e.book locate).findOrder oldRef with
      | none => return e.reject .orderNotFound
      | some idx =>
          if (e.pool.storage idx).userId ≠ userId then return e.reject .orderNotFound
          else
            let (e, order, out) ← e.submitReplace locate idx newRef side price quantity
            e.finishReplace locate order out

/-- `MatchingEngine::getBook`: the report of a book, and the counted engine. -/
def getBook (e : MatchingEngine) (locate : UInt64) : MatchingEngine × BookReport :=
  (e.count fun c => { c with bookQueries := c.bookQueries + 1 },
    { locate := locate
      toTopOfBook :=
        if kMaxLocate ≤ locate then {}
        else match e.books locate with
          | none => {}
          | some b => OrderBook.getTopOfBook b })

end MatchingEngine

end NebulaX
