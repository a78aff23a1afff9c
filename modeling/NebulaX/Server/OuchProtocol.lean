import NebulaX.Lib.Bytes
import NebulaX.Lib.Decimal
import NebulaX.Server.ItchParser

/-!
# `NebulaX.Server.OuchProtocol`: the frames of the order protocol

`ouch_protocol.h` and `ouch_protocol.cpp`. A message is the list of its bytes. A message type
is its byte, as in the source. A text that `snprintf` writes into a buffer ends with a zero
byte, which is part of what is written.
-/

set_option autoImplicit false

namespace NebulaX

open NebulaX.Lib

namespace Ouch

/-! ### Types and lengths -/

def kOuchMsgOrder : UInt8 := 79
def kOuchMsgCancelReq : UInt8 := 88
def kOuchMsgBookReq : UInt8 := 81
def kOuchMsgAck : UInt8 := 65
def kOuchMsgExec : UInt8 := 69
def kOuchMsgCancel : UInt8 := 67
def kOuchMsgReject : UInt8 := 74
def kOuchMsgBook : UInt8 := 66

def kOuchOrderMsgLen : Nat := 49
def kOuchCancelReqLen : Nat := 19
def kOuchBookReqLen : Nat := 13
def kOuchAckMsgLen : Nat := 39
def kOuchExecMsgLen : Nat := 42
def kOuchCancelMsgLen : Nat := 39
def kOuchRejectMsgLen : Nat := 36
def kOuchBookMsgLen : Nat := 34

/-! ### Fields -/

/-- `wr_be32`: the bytes it writes. -/
def wrBe32 (v : UInt32) : List UInt8 :=
  [(v >>> 24).toUInt8, (v >>> 16).toUInt8, (v >>> 8).toUInt8, v.toUInt8]

/-- `wr_be64`: the bytes it writes. -/
def wrBe64 (v : UInt64) : List UInt8 :=
  (List.range 8).map fun i => (v >>> (8 * (7 - i)).toUInt64).toUInt8

/-- `checksum`: the sum of the first `n` bytes. -/
def checksum (b : List UInt8) (n : Nat) : UInt8 :=
  ((b.take n).foldl (fun s x => s + x.toUInt32) (0 : UInt32)).toUInt8

/-- `put_token`: the fourteen digits and the zero byte behind them. -/
def putToken (buf : List UInt8) (off : Nat) (orderId : UInt64) : List UInt8 :=
  writeAt buf off ((padded 14 orderId.toNat).take 14 ++ [0])

/-- The order book field: a number in at most ten digits, without the zero byte. -/
def bookText (locate : UInt64) : List UInt8 := (decimal locate.toNat).take 10

/-- `isspace`. -/
def isSpace (b : UInt8) : Bool := b = 32 ∨ 9 ≤ b ∧ b ≤ 13

/-- `strtoull` with base 10. -/
def strtoull (text : List UInt8) : UInt64 :=
  let number (t : List UInt8) : Nat := value (t.takeWhile fun b => IsDigit b)
  let clamped (v : Nat) (signed : UInt64) : UInt64 :=
    if 2 ^ 64 ≤ v then 0xffffffffffffffff else signed
  match text.dropWhile isSpace with
  | [] => 0
  | b :: t =>
      if b = 45 then clamped (number t) (0 - UInt64.ofNat (number t))
      else if b = 43 then clamped (number t) (UInt64.ofNat (number t))
      else clamped (number (b :: t)) (UInt64.ofNat (number (b :: t)))

/-! ### Decoding -/

/-- `struct OuchEnter`. -/
structure OuchEnter where
  orderId : UInt64
  side : UInt8
  shares : UInt32
  symbolId : UInt64
  price : UInt64
  tif : UInt8
  deriving DecidableEq, Repr

/-- The order id of a request: its token as a number. -/
def tokenId (buf : List UInt8) : UInt64 := strtoull (slice buf 1 14)

/-- `ouch_decode_enter`. -/
def decodeEnter (buf : List UInt8) : Option OuchEnter :=
  if buf.length < kOuchOrderMsgLen ∨ buf.getD 0 0 ≠ kOuchMsgOrder then none
  else if buf.getD 48 0 ≠ checksum buf (kOuchOrderMsgLen - 1) then none
  else some
    { orderId := tokenId buf
      side := buf.getD 15 0
      shares := ItchParser.rdU32 buf 16
      symbolId := strtoull (slice buf 20 10)
      price := (ItchParser.rdU32 buf 30 / 100).toUInt64
      tif := buf.getD 34 0 }

/-- `ouch_decode_book_req`. -/
def decodeBookReq (buf : List UInt8) : Option UInt64 :=
  if buf.length < kOuchBookReqLen ∨ buf.getD 0 0 ≠ kOuchMsgBookReq then none
  else if buf.getD 12 0 ≠ checksum buf (kOuchBookReqLen - 1) then none
  else some (strtoull (slice buf 1 10))

/-! ### Encoding -/

/-- The last byte of a message of `len` bytes becomes its checksum. -/
def sealFrame (buf : List UInt8) (len : Nat) : List UInt8 :=
  writeAt buf (len - 1) [checksum buf (len - 1)]

/-- The first lines of the encoders of order messages: blanks, type, reference, token and
side. The zero byte behind the token is overwritten by the side. -/
def orderHead (len : Nat) (type : UInt8) (ref orderId : UInt64) (side : UInt8) : List UInt8 :=
  let buf := List.replicate len 32
  let buf := writeAt buf 0 [type]
  let buf := writeAt buf 1 (wrBe64 ref)
  let buf := putToken buf 9 orderId
  writeAt buf 23 [side]

/-- `ouch_encode_book`. -/
def encodeBook (locate : UInt64) (bidPriceCents bidVol askPriceCents askVol : UInt32) :
    List UInt8 :=
  let buf := List.replicate kOuchBookMsgLen 32
  let buf := writeAt buf 0 [kOuchMsgBook]
  let buf := writeAt buf 1 (bookText locate)
  let buf := writeAt buf 11 (wrBe32 (bidPriceCents * 100))
  let buf := writeAt buf 15 (wrBe32 bidVol)
  let buf := writeAt buf 19 (wrBe32 (askPriceCents * 100))
  let buf := writeAt buf 23 (wrBe32 askVol)
  sealFrame buf kOuchBookMsgLen

/-- `ouch_encode_accepted`. -/
def encodeAccepted (ref orderId : UInt64) (side : UInt8) (shares : UInt32) (symbolId : UInt64) :
    List UInt8 :=
  let buf := orderHead kOuchAckMsgLen kOuchMsgAck ref orderId side
  let buf := writeAt buf 24 (wrBe32 shares)
  let buf := writeAt buf 28 (bookText symbolId)
  sealFrame buf kOuchAckMsgLen

/-- `ouch_encode_executed`. -/
def encodeExecuted (ref orderId : UInt64) (side : UInt8) (shares : UInt32) (priceCents : UInt64)
    (execQty : UInt32) (execPriceCents : UInt64) : List UInt8 :=
  let buf := orderHead kOuchExecMsgLen kOuchMsgExec ref orderId side
  let buf := writeAt buf 24 (wrBe32 shares)
  let buf := writeAt buf 28 (wrBe32 (priceCents * 100).toUInt32)
  let buf := writeAt buf 32 (wrBe32 execQty)
  let buf := writeAt buf 36 (wrBe32 (execPriceCents * 100).toUInt32)
  let buf := writeAt buf 40 [84]  -- 'T'
  sealFrame buf kOuchExecMsgLen

/-- `ouch_encode_canceled`. -/
def encodeCanceled (ref orderId : UInt64) (side : UInt8) (canceledQty : UInt32)
    (symbolId : UInt64) : List UInt8 :=
  let buf := orderHead kOuchCancelMsgLen kOuchMsgCancel ref orderId side
  let buf := writeAt buf 24 (wrBe32 canceledQty)
  let buf := writeAt buf 28 (bookText symbolId)
  sealFrame buf kOuchCancelMsgLen

/-- `ouch_encode_rejected`. `reason` is the text up to its zero byte. -/
def encodeRejected (ref orderId : UInt64) (side : UInt8) (reason : List UInt8) : List UInt8 :=
  let buf := orderHead kOuchRejectMsgLen kOuchMsgReject ref orderId side
  let buf := writeAt buf 24 (reason.take 11)
  sealFrame buf kOuchRejectMsgLen

end Ouch

end NebulaX
