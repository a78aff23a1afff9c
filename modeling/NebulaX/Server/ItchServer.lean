import NebulaX.Server.Connection
import NebulaX.Server.SendThread

/-!
# `NebulaX.Server.ItchServer`: from the bytes of a client to the bytes it gets back

The way of a request through the server while its connection is open. `onRecv` appends what was
received to the connection, `drainBuffered` hands the messages to the engine, and `pushResponses`
gives the answers to the ring or to the socket, in the steps of `ioStep`. The Send thread goes on in
between. The messages of all connections come to one engine. Accepting and closing are no steps
here: a `recv` of no bytes is where the source closes the connection, and it has no step. The life
of a connection is in `ConnTable`.

`BinaryResponse.encode` is the layout of `struct BinaryResponse`: `emplace_back` fills a response
with zeros before its members are set, and the union stands at offset 8. `BinaryResponse.decode`
reads the members back, as a client does.
-/

set_option autoImplicit false

namespace NebulaX

open NebulaX.Lib

/-! ### The layout of a response -/

/-- The number of an error. -/
def ErrorCode.value : ErrorCode → UInt16
  | .invalidSide => 1
  | .invalidPriceQtyUser => 2
  | .orderNotFound => 3
  | .invalidCommandType => 4
  | .poolFull => 5
  | .mktNoLiquidity => 6
  | .fokNoFullFill => 7

/-- The error with a number. -/
def ErrorCode.ofValue (code : UInt16) : Option ErrorCode :=
  if code = 1 then some .invalidSide
  else if code = 2 then some .invalidPriceQtyUser
  else if code = 3 then some .orderNotFound
  else if code = 4 then some .invalidCommandType
  else if code = 5 then some .poolFull
  else if code = 6 then some .mktNoLiquidity
  else if code = 7 then some .fokNoFullFill
  else none

/-- The byte of a side: `SIDE_BUY`, `SIDE_SELL`. -/
def Side.wire : Side → UInt8
  | .invalid => 0
  | .buy => 1
  | .sell => 2
  | .other n => .ofNat (n + 3)

/-- The side a byte stands for. -/
def Side.ofWire (b : UInt8) : Side :=
  if b = 0 then .invalid
  else if b = 1 then .buy
  else if b = 2 then .sell
  else .other (.ofNat 253 (b.toNat - 3))

namespace ResponseBytes

/-- A response after `emplace_back`. -/
def zeros : ResponseBytes := ⟨List.replicate 48 0, List.length_replicate ..⟩

/-- Set an unsigned member of `k` bytes that stands at `off`. -/
def put (b : ResponseBytes) (off k n : Nat) (h : off + k ≤ 48 := by decide) : ResponseBytes :=
  b.set off (leBytes k n) (by rw [length_leBytes]; exact h)

/-- Read an unsigned member of `k` bytes that stands at `off`. -/
def get (b : List UInt8) (off k : Nat) : Nat := ofLe (slice b off k)

end ResponseBytes

namespace BinaryResponse

open ResponseBytes

/-- `RSP_TRADE`. -/
def rspTrade : UInt8 := 0x81

/-- `RSP_OK`. -/
def rspOk : UInt8 := 0x82

/-- `RSP_FILLED`. -/
def rspFilled : UInt8 := 0x83

/-- `RSP_CANCELLED`. -/
def rspCancelled : UInt8 := 0x84

/-- `RSP_ERROR`. -/
def rspError : UInt8 := 0x85

/-- `RSP_BOOK`. -/
def rspBook : UInt8 := 0x86

/-- The bytes of a response. -/
def encode : BinaryResponse → ResponseBytes
  | .trade t =>
      (((((zeros.put 0 1 rspTrade.toNat).put 8 8 t.locate.toNat).put 16 8 t.orderRef.toNat).put 24 1
        t.side.wire.toNat).put 28 4 t.price.toNat).put 32 4 t.quantity.toNat
  | .ok orderId => (zeros.put 0 1 rspOk.toNat).put 8 8 orderId.toNat
  | .filled orderId => (zeros.put 0 1 rspFilled.toNat).put 8 8 orderId.toNat
  | .cancelled orderId => (zeros.put 0 1 rspCancelled.toNat).put 8 8 orderId.toNat
  | .error code => (zeros.put 0 1 rspError.toNat).put 8 2 code.value.toNat
  | .book b =>
      (((((zeros.put 0 1 rspBook.toNat).put 8 8 b.locate.toNat).put 16 4 b.bidPrice.toNat).put 20 4
        b.bidVolume.toNat).put 24 4 b.askPrice.toNat).put 28 4 b.askVolume.toNat

/-- What a client reads in 48 bytes. -/
def decode (b : List UInt8) : Option BinaryResponse :=
  if get b 0 1 = rspTrade.toNat then
    some (.trade { locate := .ofNat (get b 8 8), orderRef := .ofNat (get b 16 8)
                   side := .ofWire (.ofNat (get b 24 1)), price := .ofNat (get b 28 4)
                   quantity := .ofNat (get b 32 4) })
  else if get b 0 1 = rspOk.toNat then some (.ok (.ofNat (get b 8 8)))
  else if get b 0 1 = rspFilled.toNat then some (.filled (.ofNat (get b 8 8)))
  else if get b 0 1 = rspCancelled.toNat then some (.cancelled (.ofNat (get b 8 8)))
  else if get b 0 1 = rspError.toNat then (ErrorCode.ofValue (.ofNat (get b 8 2))).map .error
  else if get b 0 1 = rspBook.toNat then
    some (.book { locate := .ofNat (get b 8 8), bidPrice := .ofNat (get b 16 4)
                  bidVolume := .ofNat (get b 20 4), askPrice := .ofNat (get b 24 4)
                  askVolume := .ofNat (get b 28 4) })
  else none

end BinaryResponse

/-! ### The server -/

/-- The server with the connections that are open. -/
structure ItchServer where
  server : TcpServer
  conns : UInt32 → ConnContext
  path : ResponsePath

namespace ItchServer

/-- What happens next. -/
inductive Input where
  /-- The IO thread handles the completion of a `recv` on `fd` that received `bytes`. `junk` is what
  `pushResponses` finds in its header before it sets the members. -/
  | recv (fd : UInt32) (bytes : List UInt8) (junk : ResponseBytes)
  /-- `pushResponses` goes on. -/
  | next (view : Nat)
  /-- A `send` of `pushResponses` returns. -/
  | sent (r : SendResult)
  /-- The Send thread goes on. -/
  | send (i : SendInput)

/-- What a step did: the answers to the messages it handled, and the step on the way to the socket.
-/
structure Event where
  answers : List (List BinaryResponse) := []
  path : ResponsePath.Input × ResponsePath.Event

/-- The server when it starts, with the connections new. -/
def start (server : TcpServer) (ring : SPSCByteRing.Threads) (zcOk : Bool) : ItchServer where
  server := server
  conns fd := { fd := fd.toNat, bufIdx := 0 }
  path := { ring := ring, send := { zcOk } }

/-- A step on the way to the socket. -/
def pathStep (N : UInt64) (s : ItchServer) (i : ResponsePath.Input) : Option (ItchServer × Event) :=
  (s.path.step N i).map fun r => ({ s with path := r.1 }, { path := (i, r.2) })

/-- `onRecv` up to the call of `pushResponses`. -/
def onRecv (N : UInt64) (s : ItchServer) (fd : UInt32) (bytes : List UInt8) (junk : ResponseBytes) :
    Option (ItchServer × Event) := do
  let (server, conn, answers) ←
    ConnContext.receive TcpServer.processItchMessage s.server (s.conns fd) bytes
  let call : ResponsePath.Input :=
    .io (.responses fd (answers.flatten.map BinaryResponse.encode) junk)
  let (path, ev) ← s.path.step N call
  return ({ server := server, conns := Function.update s.conns fd conn, path := path },
    { answers := answers, path := (call, ev) })

/-- One step. -/
def step (N : UInt64) (s : ItchServer) : Input → Option (ItchServer × Event)
  -- where nothing was received the connection is closed
  | .recv fd bytes junk => if bytes = [] then none else s.onRecv N fd bytes junk
  | .next view => s.pathStep N (.io (.next view))
  | .sent r => s.pathStep N (.io (.sent r))
  | .send i => s.pathStep N (.send i)

end ItchServer

end NebulaX
