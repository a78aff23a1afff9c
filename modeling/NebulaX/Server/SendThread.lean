import NebulaX.Server.Responses

/-!
# `NebulaX.Server.SendThread`: the Send thread's side of the response ring

The loop of the Send thread in `main.cpp` and `send_zc_all` of `send_uring.cpp`. `sendStep` is
one step of the thread: it goes on to the next load or copy, or the kernel answers
`io_uring_get_sqe`, `io_uring_submit_and_wait` or `send`. The answers are inputs.

The loop's conditions are tested where a phase is entered (`zcLoop`, `plainLoop`). Bytes of the
header that a short `pop` leaves unset read as 0. The heartbeat, the counters and the end of the
loop at shutdown are left out.
-/

set_option autoImplicit false

namespace NebulaX

open NebulaX.Lib

/-- `EINTR`. -/
def eintr : Nat := 4

/-- `ENOSYS`. -/
def enosys : Nat := 38

/-- `EOPNOTSUPP`. -/
def eopnotsupp : Nat := 95

/-- The error says that there is no zero-copy send. -/
def unsupported (errno : Nat) : Bool := errno = eopnotsupp || errno = enosys

/-- What `io_uring_submit_and_wait` comes to: `errno`, or the results of the completions that
are there. -/
inductive WaitResult where
  | failed (errno : Nat)
  | cqes (results : List Int)
  deriving DecidableEq, Repr

/-- `sent` after the loop over the completions: the last result that is not 0. -/
def WaitResult.sent (results : List Int) : Int :=
  results.foldl (fun sent res => if res = 0 then sent else res) 0

namespace SPSCByteRing

/-- The next step of a `pop(len)` that has begun or begins here. -/
def popNext (N : UInt64) (ring : Threads) (len view : Nat) : Option (Threads × Event) :=
  match ring.consumer with
  | .idle | .held _ => step N ring (.pop len view)
  | .popping _ _ _ => step N ring .popCopy
  | .popMore _ _ => step N ring (.popAgain view)

/-- `read_release(bytes)`, whatever was acquired. -/
def Threads.readRelease (ring : Threads) (bytes : Nat) : Threads :=
  { ring with
      head := ring.head.store (ring.head.latest + UInt64.ofNat bytes)
      consumer := .idle }

end SPSCByteRing

/-- Where the Send thread is. -/
inductive SendPhase where
  /-- At the top of the loop, or in the `pop` of the header. -/
  | top
  /-- In `send_zc_all`, before `read_acquire`. -/
  | zc (fd : UInt32) (need remaining : Nat)
  /-- In `send_zc_all`, before `io_uring_get_sqe`. -/
  | zcSqe (fd : UInt32) (need remaining chunk : Nat)
  /-- In `send_zc_all`, waiting for the completion. -/
  | zcWait (fd : UInt32) (need remaining chunk : Nat)
  /-- On the plain path, before `read_acquire`. -/
  | plain (fd : UInt32) (need sent : Nat)
  /-- On the plain path, in `send`. -/
  | plainSend (fd : UInt32) (need sent chunk : Nat)
  deriving DecidableEq

/-- The Send thread: where it is, and `zc_ok`. -/
structure SendThread where
  phase : SendPhase := .top
  zcOk : Bool

/-- What the Send thread meets next. -/
inductive SendInput where
  /-- The thread goes on. `view` is what a load of the tail sees. -/
  | next (view : Nat)
  /-- `io_uring_get_sqe` returns an entry or not. -/
  | sqe (ok : Bool)
  /-- `io_uring_submit_and_wait` returns. -/
  | wait (w : WaitResult)
  /-- `send` returns. -/
  | sent (r : SendResult)

/-- What a step of the Send thread did. -/
inductive SendEvent where
  | quiet
  /-- The thread took these bytes as the header of a record. -/
  | header (hdr : List UInt8)
  /-- The thread passed `bytes` to the kernel for `fd`, which took the first `n`. -/
  | passed (fd : UInt32) (bytes : List UInt8) (n : Nat)

namespace SendThread

/-- `while (remaining > 0)` of `send_zc_all`. -/
def zcLoop (fd : UInt32) (need remaining : Nat) : SendPhase :=
  if remaining > 0 then .zc fd need remaining else .top

/-- `while (sent < need)` of the plain path. -/
def plainLoop (fd : UInt32) (need sent : Nat) : SendPhase :=
  if sent < need then .plain fd need sent else .top

/-- What the loop does with the header. -/
def dispatch (t : SendThread) (hdr : List UInt8) : SendThread :=
  if ResponseBytes.type hdr = ResponseBytes.rspClose then { t with phase := .top }
  else if ResponseBytes.type hdr ≠ ResponseBytes.rspHeader then { t with phase := .top }
  else
    let fd := ResponseBytes.clientFd hdr
    let need := (ResponseBytes.count hdr).toNat * 48
    { t with phase := if t.zcOk && need ≥ 4096 then zcLoop fd need need else plainLoop fd need 0 }

/-- After `send_zc_all` returned the error `-errno`. -/
def afterError (t : SendThread) (fd : UInt32) (need errno : Nat) : SendThread :=
  if unsupported errno then ⟨plainLoop fd need 0, false⟩ else { t with phase := .top }

end SendThread

open SPSCByteRing SendThread in
/-- One step of the Send thread. -/
def sendStep (N : UInt64) (ring : Threads) (t : SendThread) (i : SendInput) :
    Option (Threads × SendThread × SendEvent) :=
  let block := readBlock ring.buf (offset N ring.head.latest)
  match t.phase, i with
  | .top, .next view =>
      (popNext N ring 48 view).map fun
        | (ring, .popped _ hdr) =>
            if hdr = [] then (ring, t, .quiet) else (ring, t.dispatch hdr, .header hdr)
        | (ring, _) => (ring, t, .quiet)
  | .zc fd need remaining, .next view =>
      (step N ring (.acquire remaining view)).map fun
        | (ring, .acquired chunk) =>
            (ring, if chunk = 0 then t else { t with phase := .zcSqe fd need remaining chunk },
              .quiet)
        | (ring, _) => (ring, t, .quiet)
  | .zcSqe fd need remaining chunk, .sqe ok =>
      -- without an entry `send_zc_all` returns `-EAGAIN`
      some (ring, if ok then { t with phase := .zcWait fd need remaining chunk }
        else t.afterError fd need eagain, .quiet)
  | .zcWait fd need _ chunk, .wait (.failed errno) =>
      if errno = eintr then some (ring, t, .quiet)
      else some (ring, t.afterError fd need errno, .passed fd (block chunk) 0)
  | .zcWait fd need remaining chunk, .wait (.cqes results) =>
      let sent := WaitResult.sent results
      if sent = 0 then some (ring, t, .quiet)
      else if sent < 0 then
        some (ring.readRelease remaining, t.afterError fd need sent.natAbs,
          .passed fd (block chunk) 0)
      else if sent.toNat ≤ chunk then
        some (ring.readRelease sent.toNat,
          { t with phase := zcLoop fd need (remaining - sent.toNat) },
          .passed fd (block chunk) sent.toNat)
      else none
  | .plain fd need sent, .next view =>
      (step N ring (.acquire (need - sent) view)).map fun
        | (ring, .acquired chunk) =>
            (ring, if chunk = 0 then t else { t with phase := .plainSend fd need sent chunk },
              .quiet)
        | (ring, _) => (ring, t, .quiet)
  | .plainSend fd need sent chunk, .sent (.sent n) =>
      if n = 0 then
        some (ring.readRelease chunk, { t with phase := .top }, .passed fd (block chunk) 0)
      else if n ≤ chunk then
        some (ring.readRelease n, { t with phase := plainLoop fd need (sent + n) },
          .passed fd (block chunk) n)
      else none
  | .plainSend fd need sent chunk, .sent (.failed errno) =>
      if errno = eagain then
        some (ring, { t with phase := .plain fd need sent }, .passed fd (block chunk) 0)
      else some (ring.readRelease chunk, { t with phase := .top }, .passed fd (block chunk) 0)
  | _, _ => none

/-! ### What the steps leave alone -/

section

open SPSCByteRing

theorem SPSCByteRing.popNext_producer {N : UInt64} {s s' : Threads} {len view : Nat} {ev : Event}
    (hstep : popNext N s len view = some (s', ev)) : s'.producer = s.producer := by
  unfold popNext at hstep
  split at hstep <;> exact (step_ofConsumer rfl hstep).1

/-- The Send thread does not touch the IO thread's side of the ring. -/
theorem sendStep_producer {N : UInt64} {ring ring' : Threads} {t t' : SendThread} {i : SendInput}
    {ev : SendEvent} (hstep : sendStep N ring t i = some (ring', t', ev)) :
    ring'.producer = ring.producer := by
  cases hphase : t.phase with
  | top =>
      cases i with
      | next view =>
          simp only [sendStep, hphase, Option.map_eq_some_iff] at hstep
          obtain ⟨⟨s', e⟩, hpop, heq⟩ := hstep
          rw [← popNext_producer hpop]
          cases e with
          | popped len hdr =>
              simp only at heq
              split at heq <;> rw [(Prod.mk.inj heq).1]
          | _ => rw [(Prod.mk.inj heq).1]
      | _ => simp [sendStep, hphase] at hstep
  | zc fd need remaining | plain fd need sent =>
      cases i with
      | next view =>
          simp only [sendStep, hphase, Option.map_eq_some_iff] at hstep
          obtain ⟨⟨s', e⟩, hacq, heq⟩ := hstep
          rw [← (step_ofConsumer rfl hacq).1]
          cases e <;> rw [(Prod.mk.inj heq).1]
      | _ => simp [sendStep, hphase] at hstep
  | zcSqe fd need remaining chunk =>
      cases i with
      | sqe ok =>
          simp only [sendStep, hphase, Option.some.injEq, Prod.mk.injEq] at hstep
          rw [hstep.1]
      | _ => simp [sendStep, hphase] at hstep
  | zcWait fd need remaining chunk =>
      cases i with
      | wait w =>
          cases w with
          | failed errno =>
              simp only [sendStep, hphase] at hstep
              split at hstep <;> rw [(Prod.mk.inj (Option.some.inj hstep)).1]
          | cqes results =>
              simp only [sendStep, hphase] at hstep
              split at hstep
              · rw [(Prod.mk.inj (Option.some.inj hstep)).1]
              · split at hstep
                · rw [← (Prod.mk.inj (Option.some.inj hstep)).1]
                  rfl
                · split at hstep
                  · rw [← (Prod.mk.inj (Option.some.inj hstep)).1]
                    rfl
                  · cases hstep
      | _ => simp [sendStep, hphase] at hstep
  | plainSend fd need sent chunk =>
      cases i with
      | sent r =>
          cases r with
          | sent n =>
              simp only [sendStep, hphase] at hstep
              split at hstep
              · rw [← (Prod.mk.inj (Option.some.inj hstep)).1]
                rfl
              · split at hstep
                · rw [← (Prod.mk.inj (Option.some.inj hstep)).1]
                  rfl
                · cases hstep
          | failed errno =>
              simp only [sendStep, hphase] at hstep
              split at hstep
              · rw [(Prod.mk.inj (Option.some.inj hstep)).1]
              · rw [← (Prod.mk.inj (Option.some.inj hstep)).1]
                rfl
      | _ => simp [sendStep, hphase] at hstep

end

/-! ### The Send thread alone with the ring -/

/-- The response ring and the Send thread. -/
structure SendSide where
  ring : SPSCByteRing.Threads
  send : SendThread

namespace SendSide

/-- One step of the Send thread. -/
def step (N : UInt64) (s : SendSide) (i : SendInput) : Option (SendSide × SendEvent) :=
  (sendStep N s.ring s.send i).map fun (ring, send, ev) => (⟨ring, send⟩, ev)

/-- A ring at rest, with the counters `head` and `tail`, and the thread at the top of its
loop. -/
def start (buf : Nat → UInt8) (head tail : UInt64) (zcOk : Bool) : SendSide where
  ring := { buf, head := ⟨head, []⟩, tail := ⟨tail, []⟩ }
  send := { zcOk }

/-- The bytes in the ring, from the head to the tail. -/
def content (N : UInt64) (buf : Nat → UInt8) (head tail : UInt64) : List UInt8 :=
  (List.range (tail - head).toNat).map fun i =>
    buf (SPSCByteRing.offset N (head + UInt64.ofNat i))

end SendSide

/-! ### The IO thread and the Send thread -/

/-- The response ring, the IO thread and the Send thread. -/
structure ResponsePath where
  ring : SPSCByteRing.Threads
  io : IoPhase := .idle
  send : SendThread

namespace ResponsePath

/-- A step of either thread. -/
inductive Input where
  | io (i : IoInput)
  | send (i : SendInput)

/-- What a step did. -/
inductive Event where
  | io (ev : IoEvent)
  | send (ev : SendEvent)

/-- One step of one of the threads. -/
def step (N : UInt64) (s : ResponsePath) : Input → Option (ResponsePath × Event)
  | .io i => (ioStep N s.ring s.io i).map fun (ring, io, ev) => ({ s with ring, io }, .io ev)
  | .send i =>
      (sendStep N s.ring s.send i).map fun (ring, send, ev) => ({ s with ring, send }, .send ev)

end ResponsePath

end NebulaX
