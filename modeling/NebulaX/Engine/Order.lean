import Mathlib.Algebra.BigOperators.Group.List.Basic
import Mathlib.Data.UInt
import NebulaX.Lib.SortedMap

/-!
# `NebulaX.Engine.Order`: orders and price levels

The records of `order.h` and of `order_book.h`. An `Order` is one 64-byte pool slot. Its
first part, `OrderInfo`, is what the order is. The rest says where it stands: the arrival
number and the three indices that thread the slot through the lists of the pool.
`OrderInfo` is a structure of its own because nearly every statement about the book reads
that part only, and the matching never reads the rest to decide anything.

`uint32_t` and `uint64_t` fields are `UInt32` and `UInt64`, so their arithmetic wraps as
the source's does. An `Order*` is the number of the slot it points to.
-/

set_option autoImplicit false

namespace NebulaX

open NebulaX.Lib

/-- `UINT32_MAX`: the "no slot" mark of every index, and the price a market buy carries. -/
def uint32Max : UInt32 := 0xFFFFFFFF

/-- `enum class Side : uint8_t`. A stored byte above 2 names no side; it is `other`, counted
from 3. -/
inductive Side where
  | invalid
  | buy
  | sell
  | other (n : Fin 253)
  deriving DecidableEq, Repr, Inhabited

/-- The side is one of the enumerators. -/
def Side.Named : Side → Prop
  | .other _ => False
  | _ => True

/-- `enum class OrderStatus : uint8_t`. A stored byte above 3 is `other`, counted from 4. -/
inductive OrderStatus where
  | opened
  | partiallyFilled
  | filled
  | cancelled
  | other (n : Fin 252)
  deriving DecidableEq, Repr, Inhabited

/-- The order proper: every field of `Order` but the arrival number and the list links. -/
structure OrderInfo where
  userId : UInt64 := 0
  orderId : UInt64 := 0
  side : Side := .invalid
  price : UInt32 := 0
  originalQty : UInt32 := 0
  remainingQty : UInt32 := 0
  filledQty : UInt32 := 0
  status : OrderStatus := .opened
  deriving DecidableEq, Repr, Inhabited

/-- `struct Order`: the order, its arrival number and the links of its pool slot. -/
structure Order extends OrderInfo where
  sequence : UInt64 := 0
  /-- The previous order of the same price level. -/
  prevIdx : UInt32 := uint32Max
  /-- The next order of the same price level. -/
  nextIdx : UInt32 := uint32Max
  /-- The next free slot, read only while the slot is free. -/
  poolNextFree : UInt32 := uint32Max
  deriving DecidableEq, Repr, Inhabited

/-- The two sides of a book: `bids_` and `asks_`. -/
inductive BookSide where
  | bid
  | ask
  deriving DecidableEq, Repr, Inhabited

namespace BookSide

/-- The comparator of the side's `std::map`: `std::greater<>` for the bids, `std::less<>`
for the asks. `Better p q` says that an order at `p` is served before one at `q`. -/
def Better : BookSide → UInt32 → UInt32 → Prop
  | .bid, p, q => q < p
  | .ask, p, q => p < q

instance (d : BookSide) : DecidableRel d.Better := fun p q =>
  match d with
  | .bid => inferInstanceAs (Decidable (q < p))
  | .ask => inferInstanceAs (Decidable (p < q))

instance (d : BookSide) : IsStrictTotalOrder UInt32 d.Better where
  trichotomous p q hpq hqp := by
    cases d <;> simp only [Better, UInt32.not_lt] at hpq hqp
    · exact UInt32.le_antisymm hpq hqp
    · exact UInt32.le_antisymm hqp hpq
  irrefl p := by cases d <;> simp [Better]
  trans p q r hpq hqr := by
    cases d
    · exact UInt32.lt_trans hqr hpq
    · exact UInt32.lt_trans hpq hqr

/-- The side an order of this book side has. -/
def side : BookSide → Side
  | .bid => .buy
  | .ask => .sell

/-- The side of the book an incoming order of this side takes from. -/
def opposite : BookSide → BookSide
  | .bid => .ask
  | .ask => .bid

end BookSide

/-- The map an order of this side lives in. The source asks `side == Side::BUY` and takes
`asks_` otherwise, for `Side::INVALID` and for a byte that names no side too. -/
def Side.bookSide : Side → BookSide
  | .buy => .bid
  | _ => .ask

/-- `struct PriceLevel`. -/
structure PriceLevel where
  headIdx : UInt32 := uint32Max
  tailIdx : UInt32 := uint32Max
  count : UInt32 := 0
  totalQty : UInt32 := 0
  deriving DecidableEq, Repr, Inhabited

/-- The price levels of one side, best price first. -/
abbrev LevelMap (d : BookSide) := SortedMap UInt32 PriceLevel d.Better

/-- `struct TopOfBook`. -/
structure TopOfBook where
  bidPrice : UInt32 := 0
  bidVolume : UInt32 := 0
  askPrice : UInt32 := 0
  askVolume : UInt32 := 0
  deriving DecidableEq, Repr, Inhabited

/-- A Treiber stack head as the pool and the index store it: `(tag << 32) | idx` in one
64-bit word. The two halves are kept apart here; a successful exchange adds one to the tag
modulo `2 ^ 32`. -/
structure TaggedIdx where
  tag : UInt32
  idx : UInt32
  deriving DecidableEq, Repr, Inhabited

/-- The word a successful exchange stores: `(((fh >> 32) + 1) << 32) | idx`. -/
def TaggedIdx.swing (h : TaggedIdx) (idx : UInt32) : TaggedIdx := ⟨h.tag + 1, idx⟩

@[simp] theorem TaggedIdx.swing_idx (h : TaggedIdx) (idx : UInt32) : (h.swing idx).idx = idx :=
  rfl

end NebulaX
