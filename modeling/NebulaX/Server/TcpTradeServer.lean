import NebulaX.Engine.MatchingEngine
import NebulaX.Server.OuchProtocol

/-!
# `NebulaX.Server.TcpTradeServer`: orders over the order protocol

`tcp_trade_server.cpp`. The server asks the engine under its mutex, so a call of the engine
is one step; `EngineCalls` names the three calls it makes, and `MatchingEngine.calls` are
those of the engine. What is sent for a message is the list of the frames given to `send`.
-/

set_option autoImplicit false

namespace NebulaX

open NebulaX.Lib

/-- The calls the server makes on an engine with states `σ`. -/
structure EngineCalls (σ : Type) where
  processAdd : σ → (locate orderRef : UInt64) → Side → (price quantity : UInt32) →
    (userId : UInt64) → OrderTif → Option (σ × List BinaryResponse)
  processCancel : σ → (locate orderRef userId : UInt64) → Option (σ × List BinaryResponse)
  getBook : σ → (locate : UInt64) → σ × BookReport

/-- The calls of the matching engine. -/
def MatchingEngine.calls : EngineCalls MatchingEngine where
  processAdd := processAdd
  processCancel := processCancel
  getBook := getBook

/-- What `TcpTradeServer` keeps besides the engine. -/
structure TcpTradeServer where
  idToRef : UInt64 → Option UInt64 := fun _ => none
  orderLocate : UInt64 → Option UInt64 := fun _ => none
  nextRef : UInt64 := 1

namespace TcpTradeServer

open Ouch

/-- `ref_for`. -/
def refFor (s : TcpTradeServer) (orderId : UInt64) : TcpTradeServer × UInt64 :=
  match s.idToRef orderId with
  | some ref => (s, ref)
  | none =>
      ({ s with
          idToRef := Function.update s.idToRef orderId (some s.nextRef)
          nextRef := s.nextRef + 1 }, s.nextRef)

/-- The time in force of an order message. -/
def tifOf (tif : UInt8) : OrderTif :=
  if tif = 68 then .day  -- 'D'
  else if tif = 73 then .ioc  -- 'I'
  else if tif = 70 then .fok  -- 'F'
  else .ioc

/-- "FOKNOFILL". -/
def fokNoFill : List UInt8 := [70, 79, 75, 78, 79, 70, 73, 76, 76]

/-- The frames `handleEnter` sends once the engine has answered. -/
def enterFrames (ref : UInt64) (ord : OuchEnter) (tif : OrderTif) (out : List BinaryResponse) :
    List (List UInt8) :=
  let priceCents := ord.price.toUInt32.toUInt64
  if tif = .fok ∧ BinaryResponse.error .fokNoFullFill ∈ out then
    [encodeRejected ref ord.orderId ord.side fokNoFill]
  else
    let trades := out.filterMap fun r => match r with
      | .trade t => some t
      | _ => none
    let ack := encodeAccepted ref ord.orderId ord.side ord.shares ord.symbolId
    let execs := trades.map fun t =>
      encodeExecuted ref ord.orderId ord.side ord.shares priceCents t.quantity t.price.toUInt64
    if trades = [] ∧ tif ≠ .day then
      [ack, encodeExecuted ref ord.orderId ord.side ord.shares priceCents 0 0]
    else ack :: execs

variable {σ : Type}

/-- `handleEnter`. -/
def handleEnter (calls : EngineCalls σ) (e : σ) (s : TcpTradeServer) (ord : OuchEnter) :
    Option ((σ × TcpTradeServer) × List (List UInt8)) := do
  let (s, ref) := s.refFor ord.orderId
  let locate := ord.symbolId
  let s := { s with orderLocate := Function.update s.orderLocate ord.orderId (some locate) }
  let side : Side := if ord.side = 83 then .sell else .buy
  let tif := tifOf ord.tif
  let (e, out) ← calls.processAdd e locate ord.orderId side ord.price.toUInt32 ord.shares
    ord.orderId tif
  return ((e, s), enterFrames ref ord tif out)

/-- `handleCancel`. Its argument `shares` is not used. -/
def handleCancel (calls : EngineCalls σ) (e : σ) (s : TcpTradeServer) (orderId : UInt64) :
    Option ((σ × TcpTradeServer) × List (List UInt8)) :=
  let (s, ref) := s.refFor orderId
  match s.orderLocate orderId with
  | none => some ((e, s), [])
  | some locate => do
      let (e, out) ← calls.processCancel e locate orderId orderId
      return ((e, s), out.filterMap fun r => match r with
        | .cancelled _ => some (encodeCanceled ref orderId 66 0 locate)  -- 'B'
        | _ => none)

/-- The length of a message by its first byte. -/
def msgLen (type : UInt8) : Option Nat :=
  if type = kOuchMsgOrder then some kOuchOrderMsgLen
  else if type = kOuchMsgCancelReq then some kOuchCancelReqLen
  else if type = kOuchMsgBookReq then some kOuchBookReqLen
  else none

/-- What `handleClient` does with a message it has received as a whole. -/
def handleMessage (calls : EngineCalls σ) (st : σ × TcpTradeServer) (buf : List UInt8) :
    Option ((σ × TcpTradeServer) × List (List UInt8)) :=
  if buf.getD 0 0 = kOuchMsgOrder then
    match decodeEnter buf with
    | none => some (st, [])
    | some ord => handleEnter calls st.1 st.2 ord
  else if buf.getD 0 0 = kOuchMsgBookReq then
    match decodeBookReq buf with
    | none => some (st, [])
    | some locate =>
        let (e, b) := calls.getBook st.1 locate
        some ((e, st.2), [encodeBook locate b.bidPrice b.bidVolume b.askPrice b.askVolume])
  else handleCancel calls st.1 st.2 (tokenId buf)

/-- The loop of `handleClient` on the bytes the client sends until it closes. `recv` is called
until a message is complete; the connection is closed on an unknown type and on half a
message. The result has the frames sent for each message. -/
def clientLoop (calls : EngineCalls σ) : Nat → σ × TcpTradeServer → List UInt8 →
    Option ((σ × TcpTradeServer) × List (List (List UInt8)))
  | 0, _, _ => none
  | _ + 1, st, [] => some (st, [])
  | fuel + 1, st, type :: bytes =>
      match msgLen type with
      | none => some (st, [])
      | some mlen =>
          if (type :: bytes).length < mlen then some (st, [])
          else do
            let (st, frames) ← handleMessage calls st ((type :: bytes).take mlen)
            let (st, rest) ← clientLoop calls fuel st ((type :: bytes).drop mlen)
            return (st, frames :: rest)

/-- `handleClient`. -/
def handleClient (calls : EngineCalls σ) (st : σ × TcpTradeServer) (bytes : List UInt8) :
    Option ((σ × TcpTradeServer) × List (List (List UInt8))) :=
  clientLoop calls (bytes.length + 1) st bytes

end TcpTradeServer

end NebulaX
