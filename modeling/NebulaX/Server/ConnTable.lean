import NebulaX.Server.Connection
import NebulaX.Server.Responses
import Mathlib.Logic.Function.Basic

/-!
# `NebulaX.Server.ConnTable`: the connections of the server

`conns_`, `pending_closes_` and the receive buffers of `TcpServer`, as the loop of
`TcpServer::start` works on them, with the Send thread and the kernel beside it. A file descriptor
is a number, and a `ConnContext*` is the number of the `new` it came from.

A turn of the loop handles the completions that are there and then calls `drainPendingClose`. There
may be any number of completions, none at all among them, so `step` takes the events one by one. A
completion of `accept` lies in the queue between the kernel's `accept` and `onAccept`. The Send
thread closes the descriptor of an `RSP_CLOSE` and stores the acknowledgement in two steps.

Of the response ring only the `RSP_CLOSE` records are here, each of them whole. `closeConnection`
gives up after 10000 tries; whether the record went in is an input. `submit_recv`, the counters and
the orderly end of `start` are left out. What is done with a message is `process`, as in
`ConnContext.receive`.
-/

set_option autoImplicit false

namespace NebulaX

/-- `IoUringPoller::MAX_BUFFERS`. -/
def maxBuffers : Nat := 64

/-- The connections of the server. -/
structure ConnTable (σ : Type) where
  server : σ
  /-- `conns_`. -/
  conns : Nat → Option Nat
  /-- The contexts that are not deleted. -/
  contexts : Nat → Option ConnContext
  /-- The pointer the next `new` gives. -/
  next : Nat
  /-- `pending_closes_`. -/
  pendingCloses : List Nat
  /-- `buf_free_stack_`, the top first. -/
  bufFreeStack : List UInt32
  /-- The `RSP_CLOSE` records in the ring: `client_fd` and the owner of `ack_ptr`. -/
  ring : List (Nat × Nat)
  /-- The Send thread has closed the descriptor and not stored the acknowledgement yet. -/
  acking : Option Nat
  /-- The descriptors that are open. -/
  opened : Nat → Bool
  /-- The completion of `accept` that is not handled yet. There is one `accept` at a time. -/
  completed : Option Nat

/-- What happens next. -/
inductive ConnInput where
  /-- The kernel accepts a connection and gives it `fd`. -/
  | arrive (fd : Nat)
  /-- The loop handles the completion of `accept`. -/
  | accept
  /-- The loop handles a completion of `recv`: the bytes, or `errno`. `pushed` says if the ring
  takes an `RSP_CLOSE`. -/
  | recv (fd : Nat) (res : Except Nat (List UInt8)) (pushed : Bool)
  | drain
  | sendClose
  | sendAck

/-- What an event comes to. -/
inductive ConnEvent where
  | silent
  | accepted (conn fd : Nat)
  | refused (fd : Nat)
  | received (conn : Nat)
  /-- A completion of `recv` that was ignored. -/
  | ignored (fd : Nat)
  | closed (conn : Nat)
  | acked (conn : Nat)
  | released (conns : List Nat)
  deriving DecidableEq

namespace ConnTable

variable {σ ω : Type}

/-- The server before the first connection. -/
def init (server : σ) (opened : Nat → Bool) : ConnTable σ where
  server := server
  conns _ := none
  contexts _ := none
  next := 0
  pendingCloses := []
  bufFreeStack := (List.range maxBuffers).map UInt32.ofNat
  ring := []
  acking := none
  opened := opened
  completed := none

/-- `close(fd)`. -/
def close (s : ConnTable σ) (fd : Nat) : ConnTable σ :=
  { s with opened := Function.update s.opened fd false }

/-- `free_buffer`. -/
def freeBuffer (s : ConnTable σ) (idx : UInt32) : ConnTable σ :=
  if s.bufFreeStack.length < maxBuffers then { s with bufFreeStack := idx :: s.bufFreeStack } else s

/-- `onAccept`, with `alloc_buffer`. -/
def onAccept (s : ConnTable σ) (fd : Nat) : ConnTable σ × ConnEvent :=
  match s.bufFreeStack with
  | [] => (s.close fd, .refused fd)
  | bufIdx :: rest =>
      let conn := s.next
      ({ s with
          bufFreeStack := rest
          next := s.next + 1
          contexts := Function.update s.contexts conn (some { fd := fd, bufIdx := bufIdx })
          conns := Function.update s.conns fd (some conn) }, .accepted conn fd)

/-- Write to a context. -/
def store (s : ConnTable σ) (conn : Nat) (ctx : ConnContext) : ConnTable σ :=
  { s with contexts := Function.update s.contexts conn (some ctx) }

/-- `closeConnection`. -/
def closeConnection (s : ConnTable σ) (conn : Nat) (ctx : ConnContext) (pushed : Bool) :
    ConnTable σ :=
  { s.store conn { ctx with closing := true, closeAcked := false } with
      ring := if pushed then s.ring ++ [(ctx.fd, conn)] else s.ring
      pendingCloses := s.pendingCloses ++ [conn] }

/-- `onRecv`. -/
def onRecv (process : σ → List UInt8 → Option (σ × ω)) (s : ConnTable σ) (conn : Nat)
    (ctx : ConnContext) (res : Except Nat (List UInt8)) (pushed : Bool) : Option (ConnTable σ) :=
  match res with
  | .error _ => some (s.closeConnection conn ctx pushed)
  | .ok [] => some (s.closeConnection conn ctx pushed)
  | .ok bytes => do
      let (server, ctx, _) ← ConnContext.receive process s.server ctx bytes
      return { s with server := server }.store conn ctx

/-- `bytes_read == -EAGAIN`. -/
def isEagain : Except Nat (List UInt8) → Bool
  | .error errno => errno = eagain
  | .ok _ => false

/-- What the loop does with a completion for a connection that is not closing. -/
def onRecvCqe (process : σ → List UInt8 → Option (σ × ω)) (s : ConnTable σ) (conn : Nat)
    (ctx : ConnContext) (res : Except Nat (List UInt8)) (pushed : Bool) :
    Option (ConnTable σ × ConnEvent) :=
  -- after `-EAGAIN` the receive is only submitted again
  if isEagain res then some (s, .received conn)
  else (s.onRecv process conn ctx res pushed).map fun s => (s, .received conn)

/-- The completion of a `recv`. -/
def recvCqe (process : σ → List UInt8 → Option (σ × ω)) (s : ConnTable σ) (fd : Nat)
    (res : Except Nat (List UInt8)) (pushed : Bool) : Option (ConnTable σ × ConnEvent) :=
  match s.conns fd with
  | none => some (s, .ignored fd)
  | some conn => do
      let ctx ← s.contexts conn
      if ctx.closing then return (s, .ignored fd)
      else s.onRecvCqe process conn ctx res pushed

/-- What `drainPendingClose` does with a connection whose close is acknowledged. -/
def release (s : ConnTable σ) (conn : Nat) (ctx : ConnContext) : ConnTable σ :=
  { s.freeBuffer ctx.bufIdx with
      conns := Function.update s.conns ctx.fd none
      contexts := Function.update s.contexts conn none }

/-- The loop of `drainPendingClose` over the rest of the list: what stays in the list, and what
was released. -/
def drainLoop (s : ConnTable σ) : List Nat → Option (ConnTable σ × List Nat × List Nat)
  | [] => some (s, [], [])
  | conn :: conns => do
      let ctx ← s.contexts conn
      if ctx.closeAcked then
        let (s, kept, released) ← drainLoop (s.release conn ctx) conns
        return (s, kept, conn :: released)
      else
        let (s, kept, released) ← drainLoop s conns
        return (s, conn :: kept, released)

/-- `drainPendingClose`. -/
def drainPendingClose (s : ConnTable σ) : Option (ConnTable σ × ConnEvent) := do
  let (s, kept, released) ← s.drainLoop s.pendingCloses
  return ({ s with pendingCloses := kept }, .released released)

/-- One event. -/
def step (process : σ → List UInt8 → Option (σ × ω)) (s : ConnTable σ) :
    ConnInput → Option (ConnTable σ × ConnEvent)
  | .arrive fd =>
      if s.completed = none ∧ s.opened fd = false then
        some ({ s with opened := Function.update s.opened fd true, completed := some fd }, .silent)
      else none
  | .accept => s.completed.map fun fd => { s with completed := none }.onAccept fd
  | .recv fd res pushed => s.recvCqe process fd res pushed
  | .drain => s.drainPendingClose
  | .sendClose =>
      match s.acking, s.ring with
      | none, (fd, conn) :: ring =>
          some ({ s.close fd with ring := ring, acking := some conn }, .closed conn)
      | _, _ => none
  | .sendAck =>
      match s.acking with
      | none => none
      | some conn =>
          (s.contexts conn).map fun ctx =>
            ({ s.store conn { ctx with closeAcked := true } with acking := none }, .acked conn)

end ConnTable

end NebulaX
