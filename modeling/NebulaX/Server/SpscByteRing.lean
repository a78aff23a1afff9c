import NebulaX.Lib.Cells
import NebulaX.Lib.Register

/-!
# `NebulaX.Server.SpscByteRing`: the byte ring between the two threads

`spsc_byte_ring.h`. `N` is the size of the ring and the counters are 64-bit numbers that wrap.
A call of one thread sees the counter of the other one as it loads it, so that value is an
argument of `push`, `readAcquire` and `freeSpace`. `memcpy` is `writeBlock` or `readBlock`, and
the pointer `read_acquire` gives is the offset of the head.

`Threads` is the ring with one producer and one consumer that run at the same time. A call is
cut where the other thread can come in between: at its load, its copies and its store. A load
of the counter of the other thread gives any value stored since the one loaded last
(`Register`); the index `view` says which.
-/

set_option autoImplicit false

namespace NebulaX

open NebulaX.Lib

/-- `class SPSCByteRing`. -/
structure SPSCByteRing where
  buf : Nat → UInt8 := fun _ => 0
  head : UInt64 := 0
  tail : UInt64 := 0

namespace SPSCByteRing

variable (N : UInt64)

/-! ### Calls -/

/-- The cell of a counter: `counter & mask`. -/
def offset (counter : UInt64) : Nat := (counter &&& (N - 1)).toNat

/-- `free_space`, which `push` computes as well. -/
def freeSpace (tail head : UInt64) : Nat := (N - (tail - head)).toNat

/-- The number of bytes `push` writes, its `actual`. It is 0 where `push` returns at once. -/
def pushLen (tail head : UInt64) (len : Nat) : Nat :=
  let free := freeSpace N tail head
  if free = 0 ∨ len = 0 then 0
  else if len < free then len else free

/-- The number of bytes up to the end of the buffer, `n1`. -/
def firstLen (tail : UInt64) (actual : Nat) : Nat :=
  let n1 := N.toNat - offset N tail
  if n1 > actual then actual else n1

/-- The first `memcpy` of `push`. -/
def copyFirst (buf : Nat → UInt8) (tail : UInt64) (data : List UInt8) (actual : Nat) :
    Nat → UInt8 :=
  let n1 := firstLen N tail actual
  if n1 > 0 then writeBlock buf (offset N tail) (data.take n1) else buf

/-- The second `memcpy` of `push`. -/
def copySecond (buf : Nat → UInt8) (tail : UInt64) (data : List UInt8) (actual : Nat) :
    Nat → UInt8 :=
  let n1 := firstLen N tail actual
  let n2 := actual - n1
  if n2 > 0 then writeBlock buf 0 ((data.drop n1).take n2) else buf

/-- `push`. -/
def push (r : SPSCByteRing) (head : UInt64) (data : List UInt8) : SPSCByteRing × Nat :=
  let actual := pushLen N r.tail head data.length
  if actual = 0 then (r, 0)
  else
    ({ r with
        buf := copySecond N (copyFirst N r.buf r.tail data actual) r.tail data actual
        tail := r.tail + UInt64.ofNat actual }, actual)

/-- `read_acquire`: the number of bytes it returns. -/
def readAcquire (head tail : UInt64) (request : Nat) : Nat :=
  let used := (tail - head).toNat
  if used = 0 ∨ request = 0 then 0
  else
    let actual := if request < used then request else used
    let contig := N.toNat - offset N head
    if actual > contig then contig else actual

/-- `read_release`. -/
def readRelease (r : SPSCByteRing) (bytes : Nat) : SPSCByteRing :=
  { r with head := r.head + UInt64.ofNat bytes }

/-- `pop`, where both loads of the tail see its value. -/
def pop (r : SPSCByteRing) (len : Nat) : SPSCByteRing × List UInt8 :=
  let n1 := readAcquire N r.head r.tail len
  if n1 = 0 then (r, [])
  else
    let got := readBlock r.buf (offset N r.head) n1
    let r := r.readRelease n1
    let remaining := len - n1
    if remaining > 0 then
      let n2 := readAcquire N r.head r.tail remaining
      if n2 > 0 then (r.readRelease n2, got ++ readBlock r.buf (offset N r.head) n2)
      else (r, got)
    else (r, got)

/-! ### Two threads -/

/-- A `push` that has loaded the counters: its data, the free space it saw and `actual`. -/
structure Pushing where
  data : List UInt8
  free : Nat
  actual : Nat
  deriving DecidableEq

/-- Where the producer is. -/
inductive Producer where
  | idle
  | loaded (p : Pushing)
  | half (p : Pushing)
  | copied (p : Pushing)
  deriving DecidableEq

/-- Where the consumer is. -/
inductive Consumer where
  | idle
  /-- `n` bytes that the last `read_acquire` returned are not released yet. -/
  | held (n : Nat)
  /-- In `pop(len)` with `got` copied, `n` more bytes are acquired. -/
  | popping (len : Nat) (got : List UInt8) (n : Nat)
  /-- In `pop(len)` between the two rounds. -/
  | popMore (len : Nat) (got : List UInt8)

/-- The ring and its threads. -/
structure Threads where
  buf : Nat → UInt8
  head : Register UInt64
  tail : Register UInt64
  producer : Producer := .idle
  consumer : Consumer := .idle

/-- What a thread does next. -/
inductive Action where
  | push (data : List UInt8) (view : Nat)
  | copyFirst
  | copySecond
  | publish
  | acquire (request view : Nat)
  | release (bytes : Nat)
  | pop (len view : Nat)
  | popCopy
  | popAgain (view : Nat)

/-- What a call came to. -/
inductive Event where
  | quiet
  /-- `push(data)` saw `free` bytes free and returned `n`. -/
  | pushed (data : List UInt8) (free n : Nat)
  /-- `read_acquire` returned `n`. -/
  | acquired (n : Nat)
  /-- `read_release` gave these bytes back. -/
  | released (bytes : List UInt8)
  /-- `pop(len)` copied these bytes. -/
  | popped (len : Nat) (bytes : List UInt8)
  deriving DecidableEq

/-- The bytes a finished `push` call sent. -/
def Event.sent : Event → List UInt8
  | .pushed data _ n => data.take n
  | _ => []

/-- The bytes the consumer obtained from a finished call. -/
def Event.obtained : Event → List UInt8
  | .released bytes => bytes
  | .popped _ bytes => bytes
  | _ => []

/-- The consumer is in no `pop`. -/
def Consumer.free : Consumer → Bool
  | .idle | .held _ => true
  | _ => false

/-- One step of one of the threads. -/
def step (s : Threads) : Action → Option (Threads × Event)
  | .push data view =>
      match s.producer with
      | .idle => (s.head.load view).map fun (head, reg) =>
          let free := freeSpace N s.tail.latest head
          let actual := pushLen N s.tail.latest head data.length
          if actual = 0 then ({ s with head := reg }, .pushed data free 0)
          else ({ s with head := reg, producer := .loaded ⟨data, free, actual⟩ }, .quiet)
      | _ => none
  | .copyFirst =>
      match s.producer with
      | .loaded p => some ({ s with
          buf := SPSCByteRing.copyFirst N s.buf s.tail.latest p.data p.actual
          producer := .half p }, .quiet)
      | _ => none
  | .copySecond =>
      match s.producer with
      | .half p => some ({ s with
          buf := SPSCByteRing.copySecond N s.buf s.tail.latest p.data p.actual
          producer := .copied p }, .quiet)
      | _ => none
  | .publish =>
      match s.producer with
      | .copied p => some ({ s with
          tail := s.tail.store (s.tail.latest + UInt64.ofNat p.actual)
          producer := .idle }, .pushed p.data p.free p.actual)
      | _ => none
  | .acquire request view =>
      if s.consumer.free then (s.tail.load view).map fun (tail, reg) =>
        let n := readAcquire N s.head.latest tail request
        ({ s with tail := reg, consumer := .held n }, .acquired n)
      else none
  | .release bytes =>
      match s.consumer with
      | .held n =>
          if bytes ≤ n then some ({ s with
            head := s.head.store (s.head.latest + UInt64.ofNat bytes)
            consumer := .held (n - bytes) },
            .released (readBlock s.buf (offset N s.head.latest) bytes))
          else none
      | _ => none
  | .pop len view =>
      if s.consumer.free then (s.tail.load view).map fun (tail, reg) =>
        let n1 := readAcquire N s.head.latest tail len
        if n1 = 0 then ({ s with tail := reg, consumer := .idle }, .popped len [])
        else ({ s with tail := reg, consumer := .popping len [] n1 }, .quiet)
      else none
  | .popCopy =>
      match s.consumer with
      | .popping len got n =>
          let got' := got ++ readBlock s.buf (offset N s.head.latest) n
          let s := { s with head := s.head.store (s.head.latest + UInt64.ofNat n) }
          if got = [] ∧ len - n > 0 then some ({ s with consumer := .popMore len got' }, .quiet)
          else some ({ s with consumer := .idle }, .popped len got')
      | _ => none
  | .popAgain view =>
      match s.consumer with
      | .popMore len got => (s.tail.load view).map fun (tail, reg) =>
          let n2 := readAcquire N s.head.latest tail (len - got.length)
          if n2 > 0 then ({ s with tail := reg, consumer := .popping len got n2 }, .quiet)
          else ({ s with tail := reg, consumer := .idle }, .popped len got)
      | _ => none

/-- The ring before the first call, with both counters at `c`. -/
def start (buf : Nat → UInt8) (c : UInt64) : Threads where
  buf := buf
  head := ⟨c, []⟩
  tail := ⟨c, []⟩

/-- `pop(len)` while the producer does nothing: every load sees the latest tail. -/
def popAlone (s : Threads) (len : Nat) : Option (Threads × List UInt8) := do
  let (s, ev) ← step N s (.pop len s.tail.news.length)
  if let .popped _ bytes := ev then return (s, bytes)
  let (s, ev) ← step N s .popCopy
  if let .popped _ bytes := ev then return (s, bytes)
  let (s, ev) ← step N s (.popAgain s.tail.news.length)
  if let .popped _ bytes := ev then return (s, bytes)
  let (s, ev) ← step N s .popCopy
  if let .popped _ bytes := ev then return (s, bytes)
  none

end SPSCByteRing

end NebulaX
