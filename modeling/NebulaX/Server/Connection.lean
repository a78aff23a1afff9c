import NebulaX.Server.TcpServer

/-!
# `NebulaX.Server.Connection`: the bytes received on a connection

`struct ConnContext` and the loop of `TcpServer::drainBuffered`, which cuts the frames out of
the bytes received so far and hands their bodies to `processItchMessage`.

The fixed buffer the kernel writes into is not part of the state. `append_read` gets the
bytes it holds. The loop does not depend on what is done with a body, so it is given as
`process`; the server's own is `TcpServer.drainBuffered`.
-/

set_option autoImplicit false

namespace NebulaX

/-- `struct ConnContext`. -/
structure ConnContext where
  fd : Nat
  bufIdx : UInt32
  pending : Nat := 0
  consumed : Nat := 0
  accumBuf : List UInt8 := []
  closing : Bool := false
  closeAcked : Bool := false
  deriving DecidableEq, Repr, Inhabited

namespace ConnContext

/-- `append_read`. `bytes` is what was received. -/
def appendRead (c : ConnContext) (bytes : List UInt8) : ConnContext :=
  let accumBuf := c.accumBuf ++ bytes
  { c with accumBuf := accumBuf, pending := accumBuf.length }

/-- `memmove(buf, buf + off, n)`. -/
def memmove (buf : List UInt8) (off n : Nat) : List UInt8 :=
  (buf.drop off).take n ++ buf.drop n

/-- `compact`. -/
def compact (c : ConnContext) : ConnContext :=
  if c.consumed = 0 then c
  else
    let remaining := c.pending - c.consumed
    let accumBuf := if remaining > 0 then memmove c.accumBuf c.consumed remaining else c.accumBuf
    { c with accumBuf := accumBuf.take remaining, pending := remaining, consumed := 0 }

variable {σ ω : Type}

/-- The loop of `drainBuffered`. `p` is an offset into the buffer. Every iteration that goes
on consumes a byte, so `fuel` is the number of bytes and one. -/
def drainLoop (process : σ → List UInt8 → Option (σ × ω)) :
    Nat → σ → ConnContext → (p avail : Nat) → Option (σ × ConnContext × List ω)
  | 0, _, _, _, _ => none
  | fuel + 1, s, c, p, avail =>
      if avail < 2 then some (s, c, [])
      else
        let bodyLen := ((c.accumBuf.getD p 0).toNat <<< 8) ||| (c.accumBuf.getD (p + 1) 0).toNat
        if bodyLen < 1 ∨ bodyLen > 4096 then
          -- an illegal length: drop the byte and look again
          drainLoop process fuel s { c with consumed := c.consumed + 1 } (p + 1) (avail - 1)
        else
          let frameLen := 2 + bodyLen
          if avail < frameLen then some (s, c, [])
          else do
            let (s, o) ← process s ((c.accumBuf.drop (p + 2)).take bodyLen)
            let (s, c, os) ← drainLoop process fuel s { c with consumed := c.consumed + frameLen }
              (p + frameLen) (avail - frameLen)
            return (s, c, o :: os)

/-- `drainBuffered`, with `process` in the place of `processItchMessage`. -/
def drainBuffered (process : σ → List UInt8 → Option (σ × ω)) (s : σ) (c : ConnContext) :
    Option (σ × ConnContext × List ω) := do
  let avail := c.pending - c.consumed
  let (s, c, os) ← drainLoop process (avail + 1) s c c.consumed avail
  return (s, c.compact, os)

/-- What `onRecv` does with the bytes it received before it pushes the responses. -/
def receive (process : σ → List UInt8 → Option (σ × ω)) (s : σ) (c : ConnContext)
    (bytes : List UInt8) : Option (σ × ConnContext × List ω) :=
  drainBuffered process s (c.appendRead bytes)

/-- The bytes received one chunk after the other. -/
def receiveAll (process : σ → List UInt8 → Option (σ × ω)) :
    σ → ConnContext → List (List UInt8) → Option (σ × ConnContext × List ω)
  | s, c, [] => some (s, c, [])
  | s, c, bytes :: chunks => do
      let (s, c, os) ← receive process s c bytes
      let (s, c, os') ← receiveAll process s c chunks
      return (s, c, os ++ os')

end ConnContext

/-- `TcpServer::drainBuffered`. -/
def TcpServer.drainBuffered (s : TcpServer) (c : ConnContext) :
    Option (TcpServer × ConnContext × List BinaryResponse) :=
  (ConnContext.drainBuffered processItchMessage s c).map fun r => (r.1, r.2.1, r.2.2.flatten)

end NebulaX
