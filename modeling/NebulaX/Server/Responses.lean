import NebulaX.Lib.Bytes
import NebulaX.Server.SpscByteRing

/-!
# `NebulaX.Server.Responses`: the IO thread's side of the response ring

`TcpServer::pushResponses`, `TcpServer::closeConnection` and the closing loop of
`TcpServer::start`, as far as they write to the ring or to a socket. A `BinaryResponse` is 48
bytes here. What a constructor leaves unset in it is given as `junk`, and a file descriptor is
the bits of an `int`.

`ioStep` is one step of the thread: a call begins, the thread goes on to the next load, copy or
store, or the kernel answers a `send`. `notifySendThread` only wakes the other thread up and
is left out.
-/

set_option autoImplicit false

namespace NebulaX

open NebulaX.Lib

/-- `RING_SIZE`. -/
def ringSize : UInt64 := 8388608

/-- The bytes of a `BinaryResponse`. -/
abbrev ResponseBytes := { b : List UInt8 // b.length = 48 }

namespace ResponseBytes

/-- `RSP_HEADER`. -/
def rspHeader : UInt8 := 0x87

/-- `RSP_CLOSE`. -/
def rspClose : UInt8 := 0x88

/-- `type` of a frame in a buffer. -/
def type (b : List UInt8) : UInt8 := b.getD 0 0

/-- `data.header.client_fd` of a frame in a buffer. -/
def clientFd (b : List UInt8) : UInt32 := UInt32.ofNat (ofLe (slice b 8 4))

/-- `data.header.count` of a frame in a buffer. -/
def count (b : List UInt8) : UInt32 := UInt32.ofNat (ofLe (slice b 12 4))

/-- Assign a member that stands at `off`. -/
def set (b : ResponseBytes) (off : Nat) (bytes : List UInt8)
    (h : off + bytes.length ≤ 48) : ResponseBytes :=
  ⟨writeAt b.1 off bytes, by rw [length_writeAt (by rw [b.2]; exact h), b.2]⟩

/-- The frame `pushResponses` puts before `count` responses. `ack_ptr` is not set. -/
def header (junk : ResponseBytes) (fd count : UInt32) : ResponseBytes :=
  ((junk.set 0 [rspHeader] (by decide)).set 8 (leBytes 4 fd.toNat) (by simp)).set 12
    (leBytes 4 count.toNat) (by simp)

/-- The frame `closeConnection` pushes. -/
def close (junk : ResponseBytes) (fd : UInt32) (ackPtr : UInt64) : ResponseBytes :=
  (((junk.set 0 [rspClose] (by decide)).set 8 (leBytes 4 fd.toNat) (by simp)).set 12
    (leBytes 4 0) (by simp)).set 16 (leBytes 8 ackPtr.toNat) (by simp)

/-- The bytes of a vector of responses. -/
def flatten (buf : List ResponseBytes) : List UInt8 := (buf.map Subtype.val).flatten

end ResponseBytes

/-! ### What the kernel answers -/

/-- What `send` returns: a number of bytes, or -1 and `errno`. -/
inductive SendResult where
  | sent (n : Nat)
  | failed (errno : Nat)
  deriving DecidableEq, Repr

/-- `EAGAIN`. -/
def eagain : Nat := 11

/-! ### The IO thread -/

namespace SPSCByteRing

/-- The next step of a `push(data)` that has begun or begins here. -/
def pushNext (N : UInt64) (ring : Threads) (data : List UInt8) (view : Nat) :
    Option (Threads × Event) :=
  match ring.producer with
  | .idle => step N ring (.push data view)
  | .loaded _ => step N ring .copyFirst
  | .half _ => step N ring .copySecond
  | .copied _ => step N ring .publish

end SPSCByteRing

/-- Where the IO thread is. -/
inductive IoPhase where
  | idle
  /-- `pushResponses` before the test of the free space. -/
  | check (fd : UInt32) (buf : List ResponseBytes) (junk : ResponseBytes)
  /-- `pushResponses` in the push of the header. -/
  | header (frame : ResponseBytes) (buf : List ResponseBytes)
  /-- `pushResponses` in the push of the responses. -/
  | body (frame : ResponseBytes) (buf : List ResponseBytes)
  /-- `pushResponses` in the loop that sends directly. -/
  | direct (fd : UInt32) (data : List UInt8) (sent spins : Nat)
  /-- `closeConnection` or the closing loop of `start` in the push of the frame. -/
  | closing (frame : ResponseBytes) (retries : Nat)

/-- What the IO thread does next. -/
inductive IoInput where
  /-- `pushResponses(fd, buf)` is called. -/
  | responses (fd : UInt32) (buf : List ResponseBytes) (junk : ResponseBytes)
  /-- A connection is closed. -/
  | close (fd : UInt32) (ackPtr : UInt64) (junk : ResponseBytes)
  /-- The thread goes on. `view` is what a load of the head sees. -/
  | next (view : Nat)
  /-- `send` returns. -/
  | sent (r : SendResult)

/-- What a step of the IO thread did. -/
inductive IoEvent where
  | quiet
  /-- The engine produced these bytes for `fd`. -/
  | produced (fd : UInt32) (bytes : List UInt8)
  /-- These bytes went into the ring. -/
  | pushed (bytes : List UInt8)
  /-- These bytes were written to `fd`. -/
  | wrote (fd : UInt32) (bytes : List UInt8)

open SPSCByteRing in
/-- One step of the IO thread. -/
def ioStep (N : UInt64) (ring : Threads) : IoPhase → IoInput →
    Option (Threads × IoPhase × IoEvent)
  | .idle, .responses fd buf junk =>
      some (ring, if buf = [] then .idle else .check fd buf junk,
        .produced fd (ResponseBytes.flatten buf))
  | .idle, .close fd ackPtr junk => some (ring, .closing (junk.close fd ackPtr) 0, .quiet)
  | .check fd buf junk, .next view =>
      (ring.head.load view).map fun (head, reg) =>
        let ring := { ring with head := reg }
        if freeSpace N ring.tail.latest head ≥ 48 + buf.length * 48 then
          (ring, .header (junk.header fd (UInt32.ofNat buf.length)) buf, .quiet)
        else (ring, .direct fd (ResponseBytes.flatten buf) 0 0, .quiet)
  | .header frame buf, .next view =>
      (pushNext N ring frame.1 view).map fun
        | (ring, .pushed data _ n) => (ring, .body frame buf, .pushed (data.take n))
        | (ring, _) => (ring, .header frame buf, .quiet)
  | .body frame buf, .next view =>
      (pushNext N ring (ResponseBytes.flatten buf) view).map fun
        | (ring, .pushed data _ n) => (ring, .idle, .pushed (data.take n))
        | (ring, _) => (ring, .body frame buf, .quiet)
  | .direct fd data sent _, .sent (.sent n) =>
      if n = 0 then some (ring, .idle, .quiet)
      else if n ≤ data.length - sent then
        some (ring, if sent + n < data.length then .direct fd data (sent + n) 0 else .idle,
          .wrote fd ((data.drop sent).take n))
      else none
  | .direct fd data sent spins, .sent (.failed errno) =>
      if errno = eagain then
        some (ring, if spins + 1 ≥ 500 then .idle else .direct fd data sent (spins + 1), .quiet)
      else some (ring, .idle, .quiet)
  | .closing frame retries, .next view =>
      (pushNext N ring frame.1 view).map fun
        | (ring, .pushed data _ n) =>
            if n = 0 then
              (ring, if retries + 1 > 10000 then .idle else .closing frame (retries + 1), .quiet)
            else (ring, .idle, .pushed (data.take n))
        | (ring, _) => (ring, .closing frame retries, .quiet)
  | _, _ => none

/-! ### What the steps leave alone -/

section

open SPSCByteRing

/-- A step of a `push` leaves the consumer where it is. -/
theorem SPSCByteRing.pushNext_consumer {N : UInt64} {s s' : Threads} {data : List UInt8}
    {view : Nat} {ev : Event} (hstep : pushNext N s data view = some (s', ev)) :
    s'.consumer = s.consumer := by
  unfold pushNext at hstep
  split at hstep
  case h_1 hprod =>
      simp only [step, hprod] at hstep
      obtain ⟨x, -, heq⟩ := Option.map_eq_some_iff.mp hstep
      split at heq <;> rw [← (Prod.mk.inj heq).1]
  all_goals
    rename_i hprod
    simp only [step, hprod, Option.some.injEq, Prod.mk.injEq] at hstep
    rw [← hstep.1]

/-- The IO thread does not touch the Send thread's side of the ring. -/
theorem ioStep_consumer {N : UInt64} {ring ring' : Threads} {io io' : IoPhase} {i : IoInput}
    {ev : IoEvent} (hstep : ioStep N ring io i = some (ring', io', ev)) :
    ring'.consumer = ring.consumer := by
  have hpush {data : List UInt8} {view : Nat} {f : Threads × Event → Threads × IoPhase × IoEvent}
      (hf : ∀ x, (f x).1 = x.1)
      (h : (pushNext N ring data view).map f = some (ring', io', ev)) :
      ring'.consumer = ring.consumer := by
    obtain ⟨x, hx, heq⟩ := Option.map_eq_some_iff.mp h
    rw [← pushNext_consumer hx, ← hf x, heq]
  unfold ioStep at hstep
  split at hstep
  -- the calls begin
  · rw [(Prod.mk.inj (Option.some.inj hstep)).1]
  · rw [(Prod.mk.inj (Option.some.inj hstep)).1]
  -- the test of the free space
  · obtain ⟨x, -, heq⟩ := Option.map_eq_some_iff.mp hstep
    simp only at heq
    split at heq <;> rw [← (Prod.mk.inj heq).1]
  -- the two pushes of `pushResponses`
  · exact hpush (by rintro ⟨r, _ | _⟩ <;> rfl) hstep
  · exact hpush (by rintro ⟨r, _ | _⟩ <;> rfl) hstep
  -- the direct send
  · split at hstep
    · rw [(Prod.mk.inj (Option.some.inj hstep)).1]
    · split at hstep
      · rw [(Prod.mk.inj (Option.some.inj hstep)).1]
      · cases hstep
  · split at hstep <;> rw [(Prod.mk.inj (Option.some.inj hstep)).1]
  -- the push of a close frame
  · refine hpush ?_ hstep
    rintro ⟨r, _ | _⟩
    case pushed => dsimp only; split <;> rfl
    all_goals rfl
  · cases hstep

end

/-! ### The ring between the IO thread and any consumer -/

/-- The step is one of the consumer. -/
def SPSCByteRing.Action.ofConsumer : SPSCByteRing.Action → Bool
  | .acquire _ _ | .release _ | .pop _ _ | .popCopy | .popAgain _ => true
  | _ => false

open SPSCByteRing in
/-- A step of the consumer pushes nothing and leaves the producer where it is. -/
theorem SPSCByteRing.step_ofConsumer {N : UInt64} {s s' : Threads} {a : Action} {ev : Event}
    (ha : a.ofConsumer = true) (hstep : step N s a = some (s', ev)) :
    s'.producer = s.producer ∧ ev.sent = [] := by
  cases a with
  | push data view => cases ha
  | copyFirst => cases ha
  | copySecond => cases ha
  | publish => cases ha
  | acquire request view =>
      simp only [step] at hstep
      split at hstep
      · obtain ⟨x, -, heq⟩ := Option.map_eq_some_iff.mp hstep
        obtain ⟨rfl, rfl⟩ := Prod.mk.inj heq
        exact ⟨rfl, rfl⟩
      · cases hstep
  | release bytes =>
      simp only [step] at hstep
      split at hstep
      · split at hstep
        · obtain ⟨rfl, rfl⟩ := Prod.mk.inj (Option.some.inj hstep)
          exact ⟨rfl, rfl⟩
        · cases hstep
      · cases hstep
  | pop len view =>
      simp only [step] at hstep
      split at hstep
      · obtain ⟨x, -, heq⟩ := Option.map_eq_some_iff.mp hstep
        split at heq <;> (obtain ⟨rfl, rfl⟩ := Prod.mk.inj heq; exact ⟨rfl, rfl⟩)
      · cases hstep
  | popCopy =>
      simp only [step] at hstep
      split at hstep
      · split at hstep <;>
          (obtain ⟨rfl, rfl⟩ := Prod.mk.inj (Option.some.inj hstep); exact ⟨rfl, rfl⟩)
      · cases hstep
  | popAgain view =>
      simp only [step] at hstep
      split at hstep
      · obtain ⟨x, -, heq⟩ := Option.map_eq_some_iff.mp hstep
        split at heq <;> (obtain ⟨rfl, rfl⟩ := Prod.mk.inj heq; exact ⟨rfl, rfl⟩)
      · cases hstep

/-- The response ring, and where the IO thread is. -/
structure ResponseRing where
  ring : SPSCByteRing.Threads
  io : IoPhase := .idle

namespace ResponseRing

/-- A step of either thread. -/
inductive Input where
  | io (i : IoInput)
  | consume (a : SPSCByteRing.Action)

/-- The IO thread does a step, or the Send thread takes bytes. -/
def step (N : UInt64) (s : ResponseRing) : Input → Option (ResponseRing × IoEvent)
  | .io i => (ioStep N s.ring s.io i).map fun (ring, io, ev) => (⟨ring, io⟩, ev)
  | .consume a =>
      if a.ofConsumer then
        (SPSCByteRing.step N s.ring a).map fun (ring, _) => ({ s with ring }, .quiet)
      else none

end ResponseRing

end NebulaX
