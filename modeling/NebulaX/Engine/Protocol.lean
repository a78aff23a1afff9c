import NebulaX.Engine.Order

/-!
# `NebulaX.Engine.Protocol`: responses, the log and the trade ring

The records the engine writes: the response frames of `protocol.h`, the write-ahead log
of `wal.h` and `wal.cpp`, the trade ring of `trade_pool.h` and the counters of
`metrics.h`.

A `BinaryResponse` is a type byte and a union. The type says which member of the union is
meant, so a response is an inductive type here with one constructor per type the engine
emits.
-/

set_option autoImplicit false

namespace NebulaX

/-- `enum class ErrorCode`. -/
inductive ErrorCode where
  | invalidSide
  | invalidPriceQtyUser
  | orderNotFound
  | invalidCommandType
  | poolFull
  | mktNoLiquidity
  | fokNoFullFill
  deriving DecidableEq, Repr, Inhabited

/-- `enum class OrderTif`. -/
inductive OrderTif where
  | day
  | ioc
  | fok
  deriving DecidableEq, Repr, Inhabited

/-- The payload of an `RSP_TRADE` frame. `side` is the side of the resting order. -/
structure Trade where
  locate : UInt64
  orderRef : UInt64
  side : Side
  price : UInt32
  quantity : UInt32
  deriving DecidableEq, Repr, Inhabited

/-- The payload of an `RSP_BOOK` frame. -/
structure BookReport extends TopOfBook where
  locate : UInt64
  deriving DecidableEq, Repr, Inhabited

/-- `struct BinaryResponse`, the frames the engine emits. -/
inductive BinaryResponse where
  | trade (t : Trade)
  | ok (orderId : UInt64)
  | filled (orderId : UInt64)
  | cancelled (orderId : UInt64)
  | error (code : ErrorCode)
  | book (b : BookReport)
  deriving DecidableEq, Repr, Inhabited

/-- `struct IOCounters`, the counters the engine writes. -/
structure IOCounters where
  newOrders : UInt64 := 0
  cancels : UInt64 := 0
  bookQueries : UInt64 := 0
  trades : UInt64 := 0
  errors : UInt64 := 0
  orderPoolUsed : UInt64 := 0
  deriving DecidableEq, Repr, Inhabited

/-! ### The write-ahead log -/

/-- `struct WalEntry`. -/
structure WalEntry where
  type : UInt8 := 0
  side : UInt8 := 0
  locate : UInt16 := 0
  price : UInt32 := 0
  quantity : UInt32 := 0
  userId : UInt64 := 0
  orderId : UInt64 := 0
  walSeq : UInt64 := 0
  deriving DecidableEq, Repr, Inhabited

/-- `WAL_SIZE`, in bytes. -/
def walSize : Nat := 512 * 2 ^ 20

/-- `WAL_ENTRIES`: how many 40-byte entries the file holds. -/
def walEntries : Nat := walSize / 40

/-- The log file: its length in bytes and the entries that are mapped. -/
structure WalFile where
  size : Nat
  base : Nat → WalEntry

/-- `class WalWriter`: the mapped entries and the number written so far. -/
structure WalWriter where
  base : Nat → WalEntry
  total : UInt64

namespace WalWriter

/-- `WalWriter::init` on a new file: `ftruncate` fills it with zeros. -/
def fresh : WalWriter := ⟨fun _ => {}, 0⟩

/-- `WalWriter::init`. A new file is brought to its full length, and `ftruncate` fills it with
zeros; the number written into an old one is taken from its length. -/
def init (f : WalFile) : WalFile × WalWriter :=
  if f.size = 0 then (⟨walSize, fun _ => {}⟩, ⟨fun _ => {}, 0⟩)
  else (f, ⟨f.base, UInt64.ofNat (min (f.size / 40) walEntries)⟩)

/-- `WalWriter::append`: the file is a ring. -/
def append (w : WalWriter) (entry : WalEntry) : WalWriter where
  base := Function.update w.base (w.total.toNat % walEntries) entry
  total := w.total + 1

/-- `WalWriter::needCheckpoint`: a lap has just been completed. -/
def needCheckpoint (w : WalWriter) : Bool := 0 < w.total && w.total.toNat % walEntries == 0

end WalWriter

/-- `class WalReader`: the mapped entries and how many there are. -/
structure WalReader where
  base : Nat → WalEntry
  count : Nat

namespace WalReader

/-- `WalReader::open`. -/
def openFile (f : WalFile) : Option WalReader :=
  if f.size < 40 then none else some ⟨f.base, min (f.size / 40) walEntries⟩

/-- `WalReader::entryAt`. -/
def entryAt (r : WalReader) (i : Nat) : Option WalEntry :=
  if i < r.count then some (r.base i) else none

end WalReader

/-! ### The trade ring -/

/-- `TRADE_CAPACITY`. -/
def tradeCapacity : Nat := 2 ^ 20

/-- `struct TradeEntry`. -/
structure TradeEntry where
  tradeId : UInt64 := 0
  buyOrderId : UInt64 := 0
  sellOrderId : UInt64 := 0
  price : UInt32 := 0
  quantity : UInt32 := 0
  buyerId : UInt64 := 0
  sellerId : UInt64 := 0
  timestamp : UInt64 := 0
  seq : UInt64 := 0
  deriving DecidableEq, Repr, Inhabited

/-- `struct TradePool`. -/
structure TradePool where
  entries : Nat → TradeEntry
  writeIdx : UInt64

/-- Write a record to the ring. The time stamp of the overwritten record stays. -/
def TradePool.record (p : TradePool) (t : TradeEntry) : TradePool :=
  let idx := p.writeIdx.toNat % tradeCapacity
  { entries := Function.update p.entries idx { t with timestamp := (p.entries idx).timestamp }
    writeIdx := p.writeIdx + 1 }

end NebulaX
