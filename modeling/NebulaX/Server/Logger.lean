import NebulaX.Server.MpscRing

/-!
# `NebulaX.Server.Logger`: the log file

`logger.h` and `logger.cpp`, after an `init` that opened the file and the eventfd. Any number of
threads call `log`, which puts an entry into an `MPSCRing` and rings the eventfd. `consumerLoop` is
the thread that takes entries out and writes them, and sleeps on the eventfd when there are none.
`shutdown` stops that thread and writes what is left.

Calls are cut at their accesses to shared memory and at their system calls; the accesses to the ring
are those of `MpscRing`. A line is its time stamp and its entry, and `now` is what the clock says
when a step reads it. The eventfd is a counter: a `write` adds 1, and a `read` waits until it is not
0 and takes it back to 0.
-/

set_option autoImplicit false

namespace NebulaX

/-- `enum LogLevel`. -/
inductive LogLevel where
  | fatal
  | error
  | warn
  | info
  deriving DecidableEq, Repr, Inhabited

/-- The number of a level: the higher, the less urgent. -/
def LogLevel.value : LogLevel → Nat
  | .fatal => 0
  | .error => 1
  | .warn => 2
  | .info => 3

/-- `struct LogEntry`. `msg` is the text without its final 0. -/
structure LogEntry where
  level : LogLevel
  msg : List UInt8
  deriving DecidableEq, Repr, Inhabited

/-- What `log` makes of its arguments, with `text` the formatted message: `vsnprintf` keeps what
fits into 255 bytes with the final 0. -/
def logEntry (level : LogLevel) (text : List UInt8) : LogEntry := ⟨level, text.take 254⟩

/-- A line of the file. -/
structure LogLine where
  ts : Nat
  entry : LogEntry
  deriving DecidableEq, Repr

/-- Where a thread is in `log`. -/
inductive LogCall where
  | idle
  /-- From the checks to `commit`. -/
  | logging (entry : LogEntry)
  /-- Before the `write` to `wake_fd_`. -/
  | notify
  deriving DecidableEq

/-- Where `consumerLoop` is. -/
inductive LogConsumer where
  /-- Before the load of `stopped_`. -/
  | check
  /-- Before the first `tryPop` of a round. -/
  | pop
  /-- Before the `read` of `wake_fd_`. -/
  | wait
  /-- An entry was popped that starts a batch. -/
  | first
  /-- An entry was popped, in a batch with this time stamp. -/
  | more (ts : Nat)
  | consume (ts : Nat)
  /-- Before the `tryPop` that may go on with the batch. -/
  | next (ts : Nat)
  | ended
  deriving DecidableEq

/-- Where `shutdown` is. -/
inductive LogShutdown where
  | notCalled
  /-- `stopped_` is set: before the `write` to `wake_fd_`. -/
  | notify
  | join
  /-- In the loop that writes what is left. -/
  | pop (ts : Nat)
  | write (ts : Nat)
  | consume (ts : Nat)
  /-- The file is closed, and `log_fd_` is -1. -/
  | closed
  deriving DecidableEq

/-- `class Logger` with its threads. -/
structure Logger (τ : Type) where
  threshold : LogLevel
  ring : MpscRing τ LogEntry
  wake : Nat
  stopped : Bool
  calls : τ → LogCall
  consumer : LogConsumer
  closer : LogShutdown
  file : List LogLine

/-- What happens next. -/
inductive LogAction (τ : Type) where
  /-- A thread calls `log`. -/
  | log (t : τ) (level : LogLevel) (text : List UInt8)
  /-- The next access of a thread that is in `log`. -/
  | next (t : τ)
  /-- The next access of `consumerLoop`. -/
  | consumer (now : Nat)
  /-- `shutdown` is called. -/
  | shutdown
  /-- The next access of `shutdown`. -/
  | closer (now : Nat)

/-- The access to the ring that a step makes, with what it shows. -/
abbrev LogEvent (τ : Type) := Option (MpscAction τ LogEntry × MpscEvent LogEntry)

namespace Logger

variable {τ : Type}

/-- The logger after `init`. -/
def start (threshold : LogLevel) : Logger τ where
  threshold := threshold
  ring := .init
  wake := 0
  stopped := false
  calls _ := .idle
  consumer := .check
  closer := .notCalled
  file := []

/-- The access that a thread makes next on the way from `alloc` to `commit`. -/
def ringAction (t : τ) (entry : LogEntry) : MpscProducer LogEntry → MpscAction τ LogEntry
  | .idle => .claim t
  | .waiting _ => .load t
  | .ready _ => .mark t
  | .holding _ => .write t entry
  | .written _ _ => .commit t

/-- Where the access leads to: after `commit` the thread rings. -/
def afterAccess (entry : LogEntry) : MpscProducer LogEntry → LogCall
  | .written _ _ => .notify
  | _ => .logging entry

variable [DecidableEq τ]

/-- An access to the ring. -/
def access (cap : Nat) (s : Logger τ) (a : MpscAction τ LogEntry) :
    Option (Logger τ × LogEvent τ) :=
  (s.ring.step cap a).map fun r => ({ s with ring := r.1 }, some (a, r.2))

/-- `tryPop`: `found` says whether there was an entry. -/
def tryPop (cap : Nat) (s : Logger τ) (goOn : Logger τ → Bool → Logger τ) :
    Option (Logger τ × LogEvent τ) :=
  (s.access cap .tryPop).map fun r => (goOn r.1 (r.1.ring.consumer = .popped), r.2)

/-- `dprintf` of the entry that was popped. -/
def writeLine (cap : Nat) (s : Logger τ) (ts : Nat) : Option (Logger τ × LogEvent τ) :=
  (s.ring.step cap .read).bind fun r => match r.2 with
    | .saw _ entry =>
        some ({ s with ring := r.1, file := s.file ++ [⟨ts, entry⟩] }, some (.read, r.2))
    | _ => none

/-- A thread that calls `log` goes on. -/
def goto (s : Logger τ) (t : τ) (c : LogCall) : Logger τ :=
  { s with calls := Function.update s.calls t c }

/-- The next access of a thread in `Logger::log`. -/
def callStep (cap : Nat) (s : Logger τ) (t : τ) : Option (Logger τ × LogEvent τ) :=
  match s.calls t with
  | .idle => none
  | .logging entry =>
      let p := s.ring.producers t
      (s.access cap (ringAction t entry p)).map fun r => (r.1.goto t (afterAccess entry p), r.2)
  | .notify => some ({ s with wake := s.wake + 1 }.goto t .idle, none)

/-- The next access of `Logger::consumerLoop`. A `read` of the eventfd at 0 waits. -/
def consumerStep (cap : Nat) (s : Logger τ) (now : Nat) : Option (Logger τ × LogEvent τ) :=
  match s.consumer with
  | .check => some ({ s with consumer := if s.stopped then .ended else .pop }, none)
  | .pop => s.tryPop cap fun s found => { s with consumer := if found then .first else .wait }
  | .wait => if s.wake = 0 then none else some ({ s with wake := 0, consumer := .check }, none)
  | .first => (s.writeLine cap now).map fun r => ({ r.1 with consumer := .consume now }, r.2)
  | .more ts => (s.writeLine cap ts).map fun r => ({ r.1 with consumer := .consume ts }, r.2)
  | .consume ts =>
      (s.access cap .consume).map fun r => ({ r.1 with consumer := .next ts }, r.2)
  | .next ts =>
      s.tryPop cap fun s found => { s with consumer := if found then .more ts else .check }
  | .ended => none

/-- The next access of `Logger::shutdown`. -/
def closerStep (cap : Nat) (s : Logger τ) (now : Nat) : Option (Logger τ × LogEvent τ) :=
  match s.closer with
  | .notCalled => none
  | .notify => some ({ s with wake := s.wake + 1, closer := .join }, none)
  | .join => if s.consumer = .ended then some ({ s with closer := .pop now }, none) else none
  | .pop ts => s.tryPop cap fun s found => { s with closer := if found then .write ts else .closed }
  | .write ts => (s.writeLine cap ts).map fun r => ({ r.1 with closer := .consume ts }, r.2)
  | .consume ts => (s.access cap .consume).map fun r => ({ r.1 with closer := .pop ts }, r.2)
  | .closed => none

/-- One step. -/
def step (cap : Nat) (s : Logger τ) : LogAction τ → Option (Logger τ × LogEvent τ)
  | .log t level text =>
      match s.calls t with
      | .idle =>
          if s.threshold.value < level.value ∨ s.closer = .closed then some (s, none)
          else some (s.goto t (.logging (logEntry level text)), none)
      | _ => none
  | .next t => s.callStep cap t
  | .consumer now => s.consumerStep cap now
  | .shutdown =>
      match s.closer with
      | .notCalled => some ({ s with stopped := true, closer := .notify }, none)
      | _ => none
  | .closer now => s.closerStep cap now

end Logger

end NebulaX
