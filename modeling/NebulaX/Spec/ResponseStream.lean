import NebulaX.Server.SendThread

/-!
# `NebulaX.Spec.ResponseStream`: what the response ring is meant to carry

The bytes that go from the IO thread to the Send thread are records. A record is a header frame
with the number of responses that follow it, or a close frame. `Record` carries that as a field,
so a truncated record or one with a wrong count cannot be built.

`SendPos` is the Send thread as it is meant to be: it goes through the records one by one and
hands the responses of each to the connection of that record, in order. `Move` is what it may do
in a step, and `Skip` is what it does when a connection fails.
-/

set_option autoImplicit false

namespace NebulaX

open NebulaX.Lib

/-- A complete record. -/
structure Record where
  frame : ResponseBytes
  body : List ResponseBytes
  complete : (ResponseBytes.type frame.1 = ResponseBytes.rspHeader ∧
      (ResponseBytes.count frame.1).toNat = body.length) ∨
    (ResponseBytes.type frame.1 = ResponseBytes.rspClose ∧ body = [])

namespace Record

/-- The responses, as bytes. -/
def bodyBytes (r : Record) : List UInt8 := ResponseBytes.flatten r.body

/-- The record, as it stands in the ring. -/
def bytes (r : Record) : List UInt8 := r.frame.1 ++ r.bodyBytes

/-- The connection the record is for. -/
def fd (r : Record) : UInt32 := ResponseBytes.clientFd r.frame.1

/-- Records one after the other. -/
def stream (recs : List Record) : List UInt8 := (recs.map bytes).flatten

end Record

/-- The records behind the Send thread, the records before it, and how many bytes of the
responses of the first of those are handed over, when its header is taken. -/
structure SendPos where
  done : List Record
  rest : List Record
  mid : Option Nat := none

namespace SendPos

/-- A step of the Send thread over the records. -/
inductive Move : SendPos → SendEvent → SendPos → Prop
  | quiet (p : SendPos) : Move p .quiet p
  | empty {done rest : List Record} {r : Record} (hr : r.body = []) :
      Move ⟨done, r :: rest, none⟩ (.header r.frame.1) ⟨done ++ [r], rest, none⟩
  | header {done rest : List Record} {r : Record} (hr : r.body ≠ []) :
      Move ⟨done, r :: rest, none⟩ (.header r.frame.1) ⟨done, r :: rest, some 0⟩
  | pass {done rest : List Record} {r : Record} {sent n : Nat} {bytes : List UInt8}
      (hbytes : bytes <+: r.bodyBytes.drop sent) (hn : n ≤ bytes.length)
      (hmore : sent + n < r.bodyBytes.length) :
      Move ⟨done, r :: rest, some sent⟩ (.passed r.fd bytes n) ⟨done, r :: rest, some (sent + n)⟩
  | last {done rest : List Record} {r : Record} {sent n : Nat} {bytes : List UInt8}
      (hbytes : bytes <+: r.bodyBytes.drop sent) (hn : n ≤ bytes.length)
      (hdone : sent + n = r.bodyBytes.length) :
      Move ⟨done, r :: rest, some sent⟩ (.passed r.fd bytes n) ⟨done ++ [r], rest, none⟩

/-- The Send thread gives up the rest of a record. -/
inductive Skip : SendPos → SendEvent → SendPos → Prop
  | mk {done rest : List Record} {r : Record} {sent : Nat} {bytes : List UInt8}
      (hbytes : bytes <+: r.bodyBytes.drop sent) :
      Skip ⟨done, r :: rest, some sent⟩ (.passed r.fd bytes 0) ⟨done ++ [r], rest, none⟩

end SendPos

end NebulaX
