import NebulaX.Engine.Run

/-!
# `NebulaX.Spec.Exchange`: what the engine is for

The exchange without its data structures. A book side is a queue of orders, best price
first and first come first served within a price; there is no pool, no list and no hash
table. Of the pool only the number of free slots is left, since an order that finds none
is refused, and of the index the set of references it knows.

* `greedy` is the matching rule: walk the queue of the other side once, skip the taker's
  own orders, stop at the first price beyond the limit, and fill everything in between.
* `Exchange.add`, `cancel`, `cancelShares` and `replace` are the four calls, and
  `Exchange.step` dispatches a `Call`.

The only thing a step leaves open is whether the index keeps a new reference. It is the
argument `keep`: the table drops an entry when its own nodes are used up, and nothing at
this level says when.
-/

set_option autoImplicit false

namespace NebulaX

/-- A side of the book of a locate. -/
abbrev Place := UInt64 × BookSide

/-! ### Queues -/

namespace Queue

/-- Best price first. -/
def Sorted (d : BookSide) (q : List OrderInfo) : Prop :=
  q.Pairwise fun a b => ¬ d.Better b.price a.price

/-- Enter a queue: behind everything that is served first, so last of its own price. -/
def insert (d : BookSide) (o : OrderInfo) : List OrderInfo → List OrderInfo
  | [] => [o]
  | x :: q => if d.Better o.price x.price then o :: x :: q else x :: insert d o q

/-- The orders under other references. -/
def without (ref : UInt64) (q : List OrderInfo) : List OrderInfo :=
  q.filter fun o => o.orderId ≠ ref

/-- Change the orders under one reference in place. -/
def modify (ref : UInt64) (f : OrderInfo → OrderInfo) (q : List OrderInfo) : List OrderInfo :=
  q.map fun o => if o.orderId = ref then f o else o

/-- What a queue offers at `price` or better, modulo `2 ^ 32`. -/
def available (d : BookSide) (price : UInt32) (q : List OrderInfo) : UInt32 :=
  ((q.takeWhile fun o => ¬ d.Better price o.price).map fun o => o.remainingQty).sum

end Queue

/-! ### The matching rule -/

/-- A resting order after a trade of `quantity` that did not use it up. -/
def OrderInfo.filledBy (o : OrderInfo) (quantity : UInt32) : OrderInfo :=
  { o with
    remainingQty := o.remainingQty - quantity
    filledQty := o.filledQty + quantity
    status := .partiallyFilled }

/-- The order is passed over: it is of the taker itself. User 0 is nobody. -/
def Skips (userId : UInt64) (o : OrderInfo) : Prop := userId ≠ 0 ∧ o.userId = userId

instance (userId : UInt64) (o : OrderInfo) : Decidable (Skips userId o) :=
  inferInstanceAs (Decidable (_ ∧ _))

/-- What a match comes to. -/
structure Fills where
  /-- The trades: the resting order as it was, and the quantity. -/
  trades : List (OrderInfo × UInt32)
  /-- The queue afterwards. -/
  queue : List OrderInfo
  /-- What is left of the taker. -/
  rest : UInt32
  deriving DecidableEq, Repr

/-- Match `rest` units of a taker with a limit against a queue. -/
def greedy (d : BookSide) (userId : UInt64) (limit : UInt32) :
    UInt32 → List OrderInfo → Fills
  | rest, [] => ⟨[], [], rest⟩
  | rest, o :: q =>
      if rest = 0 then ⟨[], o :: q, rest⟩
      else if Skips userId o then
        let r := greedy d userId limit rest q
        { r with queue := o :: r.queue }
      else if d.Better limit o.price then ⟨[], o :: q, rest⟩
      else
        let quantity := min rest o.remainingQty
        let r := greedy d userId limit (rest - quantity) q
        { trades := (o, quantity) :: r.trades
          queue := if o.remainingQty = quantity then r.queue
            else o.filledBy quantity :: r.queue
          rest := r.rest }

namespace Fills

/-- The references of the orders that were used up. -/
def consumed (r : Fills) : List UInt64 :=
  (r.trades.filter fun t => t.1.remainingQty = t.2).map fun t => t.1.orderId

/-- The frames of the trades. -/
def frames (r : Fills) (locate : UInt64) (d : BookSide) : List BinaryResponse :=
  r.trades.map fun t => .trade
    { locate := locate, orderRef := t.1.orderId, side := d.side, price := t.1.price
      quantity := t.2 }

/-- The taker afterwards. -/
def taker (r : Fills) (o : OrderInfo) : OrderInfo :=
  { o with
    remainingQty := r.rest
    filledQty := o.filledQty + (o.remainingQty - r.rest)
    status := if r.trades = [] then o.status
      else if r.rest = 0 then .filled else .partiallyFilled }

end Fills

/-! ### The exchange -/

/-- The state of the exchange. -/
structure Exchange where
  queues : Place → List OrderInfo
  /-- The references the index knows. -/
  indexed : UInt64 → Bool
  /-- The number of free slots. -/
  free : Nat

namespace Exchange

/-- No resting order has this reference. -/
def Absent (x : Exchange) (ref : UInt64) : Prop :=
  ∀ π, ∀ o ∈ x.queues π, o.orderId ≠ ref

/-- The match of an incoming order. -/
def fills (x : Exchange) (locate : UInt64) (o : OrderInfo) : Fills :=
  greedy o.side.bookSide.opposite o.userId o.price o.remainingQty
    (x.queues (locate, o.side.bookSide.opposite))

/-- The exchange after a match against the queue of a side. -/
def settled (x : Exchange) (locate : UInt64) (d : BookSide) (r : Fills) : Exchange where
  queues := Function.update x.queues (locate, d) r.queue
  indexed k := x.indexed k && !r.consumed.contains k
  free := x.free + r.consumed.length

/-- The exchange after the match of an incoming order. -/
def matched (x : Exchange) (locate : UInt64) (o : OrderInfo) : Exchange :=
  x.settled locate o.side.bookSide.opposite (x.fills locate o)

/-- Enter an order into its queue. -/
def enter (x : Exchange) (keep : Bool) (locate : UInt64) (o : OrderInfo) : Exchange where
  queues := Function.update x.queues (locate, o.side.bookSide)
    (Queue.insert o.side.bookSide o (x.queues (locate, o.side.bookSide)))
  indexed := if keep then Function.update x.indexed o.orderId true else x.indexed
  free := x.free - 1

/-- Rest what is left of an order, or refuse it for want of a slot. -/
def rest (x : Exchange) (keep : Bool) (locate : UInt64) (o : OrderInfo) :
    Exchange × BinaryResponse :=
  if o.side = .invalid ∨ x.free = 0 then (x, .error .poolFull)
  else (x.enter keep locate o, .ok o.orderId)

/-- The order a call names: resting in that book and known to the index. -/
def find (x : Exchange) (locate ref : UInt64) : Option OrderInfo :=
  if x.indexed ref then
    (x.queues (locate, .bid) ++ x.queues (locate, .ask)).find? fun o => o.orderId = ref
  else none

/-- Take an order off its queue. -/
def remove (x : Exchange) (locate : UInt64) (o : OrderInfo) : Exchange where
  queues := Function.update x.queues (locate, o.side.bookSide)
    (Queue.without o.orderId (x.queues (locate, o.side.bookSide)))
  indexed := Function.update x.indexed o.orderId false
  free := x.free + 1

/-- Take `shares` off an order that has more. -/
def reduce (x : Exchange) (locate : UInt64) (o : OrderInfo) (shares : UInt32) : Exchange :=
  { x with
    queues := Function.update x.queues (locate, o.side.bookSide)
      (Queue.modify o.orderId (fun o => { o with remainingQty := o.remainingQty - shares })
        (x.queues (locate, o.side.bookSide))) }

/-- The incoming order of a new reference. -/
def incoming (ref : UInt64) (side : Side) (price quantity : UInt32) (userId : UInt64) :
    OrderInfo where
  userId := userId
  orderId := ref
  side := side
  price := price
  originalQty := quantity
  remainingQty := quantity

/-- Match an order, then rest what is left if it may rest. -/
def submitDay (x : Exchange) (keep : Bool) (locate : UInt64) (o : OrderInfo) :
    Exchange × List BinaryResponse :=
  let r := x.fills locate o
  let frames := r.frames locate o.side.bookSide.opposite
  if (r.taker o).status = .filled then (x.matched locate o, frames ++ [.filled o.orderId])
  else
    let (x', answer) := (x.matched locate o).rest keep locate (r.taker o)
    (x', frames ++ [answer])

/-- Match an order and drop what is left. `code` answers a taker that got too little. -/
def submitNow (x : Exchange) (locate : UInt64) (o : OrderInfo) (needed : UInt32)
    (code : ErrorCode) : Exchange × List BinaryResponse :=
  let r := x.fills locate o
  let frames := r.frames locate o.side.bookSide.opposite
  if (r.taker o).status = .filled then (x.matched locate o, frames ++ [.filled o.orderId])
  else if (r.taker o).filledQty < needed then (x.matched locate o, frames ++ [.error code])
  else (x.matched locate o, frames)

/-- What `processAdd` refuses before it looks at the book. -/
def refusal (locate orderRef : UInt64) (side : Side) (price quantity : UInt32)
    (userId : UInt64) (tif : OrderTif) : Option ErrorCode :=
  if MatchingEngine.kMaxLocate ≤ locate then some .invalidCommandType
  else if side = .invalid then some .invalidSide
  else if (MatchingEngine.isMarket tif price = false ∧ price = 0) ∨ quantity = 0 ∨ userId = 0
      ∨ orderRef = 0 then some .invalidPriceQtyUser
  else none

/-- What the checks of `processAdd` leave. -/
theorem refusal_eq_none_iff {locate orderRef : UInt64} {side : Side} {price quantity : UInt32}
    {userId : UInt64} {tif : OrderTif} :
    refusal locate orderRef side price quantity userId tif = none ↔
      ¬ MatchingEngine.kMaxLocate ≤ locate ∧ side ≠ .invalid ∧
        ¬ (MatchingEngine.isMarket tif price = false ∧ price = 0) ∧ quantity ≠ 0 ∧ userId ≠ 0 ∧
        orderRef ≠ 0 := by
  rw [refusal, ite_eq_iff, ite_eq_iff, ite_eq_iff]
  simp [not_or]

/-- A new order. -/
def add (x : Exchange) (keep : Bool) (locate orderRef : UInt64) (side : Side)
    (price quantity : UInt32) (userId : UInt64) (tif : OrderTif) :
    Exchange × List BinaryResponse :=
  let limit := MatchingEngine.limitPrice tif side price
  let o := incoming orderRef side limit quantity userId
  match refusal locate orderRef side price quantity userId tif with
  | some code => (x, [.error code])
  | none =>
      match tif with
      | .day => x.submitDay keep locate o
      | .ioc => x.submitNow locate o 1 .mktNoLiquidity
      | .fok =>
          if quantity ≤ Queue.available side.bookSide.opposite limit
              (x.queues (locate, side.bookSide.opposite)) then
            x.submitNow locate o quantity .fokNoFullFill
          else (x, [.error .fokNoFullFill])

/-- The order a call may act on: named by it, in that book, and of that user. -/
def owned (x : Exchange) (locate ref userId : UInt64) : Option OrderInfo :=
  if MatchingEngine.kMaxLocate ≤ locate then none
  else (x.find locate ref).filter fun o => o.userId = userId

/-- Cancel an order. -/
def cancel (x : Exchange) (locate ref userId : UInt64) : Exchange × List BinaryResponse :=
  match x.owned locate ref userId with
  | none => (x, [.error .orderNotFound])
  | some o => (x.remove locate o, [.cancelled ref])

/-- Cancel some shares of an order. -/
def cancelShares (x : Exchange) (locate ref : UInt64) (shares : UInt32) (userId : UInt64) :
    Exchange × List BinaryResponse :=
  match x.owned locate ref userId with
  | none => (x, [.error .orderNotFound])
  | some o =>
      if o.remainingQty ≤ shares then (x.remove locate o, [.cancelled ref])
      else (x.reduce locate o shares, [.ok ref])

/-- Replace an order by a new one, which belongs to its own reference. -/
def replace (x : Exchange) (keep : Bool) (locate oldRef newRef : UInt64) (side : Side)
    (price quantity : UInt32) (userId : UInt64) : Exchange × List BinaryResponse :=
  match x.owned locate oldRef userId with
  | none => (x, [.error .orderNotFound])
  | some o => (x.remove locate o).submitDay keep locate (incoming newRef side price quantity newRef)

/-- One call. -/
def step (keep : Bool) (x : Exchange) : Call → Exchange × List BinaryResponse
  | .add locate orderRef side price quantity userId tif =>
      x.add keep locate orderRef side price quantity userId tif
  | .cancel locate orderRef userId => x.cancel locate orderRef userId
  | .cancelShares locate orderRef shares userId => x.cancelShares locate orderRef shares userId
  | .replace locate oldRef newRef side price quantity userId =>
      x.replace keep locate oldRef newRef side price quantity userId

/-! ### What callers promise -/

/-- A reference a call brings in is not the reference of a resting order; a replacement
may keep the old one. -/
def Fresh (x : Exchange) : Call → Prop
  | .add _ orderRef .. => x.Absent orderRef
  | .replace _ oldRef newRef .. => newRef = oldRef ∨ x.Absent newRef
  | _ => True

/-- An order the index would find for this reference and user rests in this book. -/
def Homed (x : Exchange) (locate ref userId : UInt64) : Prop :=
  ∀ π, ∀ o ∈ x.queues π, o.orderId = ref → o.userId = userId → x.indexed ref = true →
    π.1 = locate

/-- A call that names an order of its user is addressed to the book the order rests in. -/
def Routed (x : Exchange) : Call → Prop
  | .add .. => True
  | .cancel locate ref userId => x.Homed locate ref userId
  | .cancelShares locate ref _ userId => x.Homed locate ref userId
  | .replace locate oldRef _ _ _ _ userId => x.Homed locate oldRef userId

end Exchange

end NebulaX
