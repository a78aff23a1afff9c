import Mathlib.Data.UInt
import Mathlib.Logic.Function.Basic

/-!
# `NebulaX.Server.MpscRing`: the ring of the logger

`mpsc_ring.h`: any number of producers and one consumer. `cap` is `CAPACITY`, the entries are of
any type, and so are the names of the producers.

A call is cut at its accesses to shared memory. `alloc` is a `fetch_add`, a load that is repeated
until it gives 0, and a store; `commit` is a store; `tryPop` is a load, and `consume` a store. The
entry is written between `alloc` and `commit` and read between `tryPop` and `consume`, through the
pointers these calls give. `step` is one such access. It is `none` where the thread is not at that
place of its program.
-/

set_option autoImplicit false

namespace NebulaX

/-- `UINT64_MAX`, the mark of a slot that is being written. -/
def slotBusy : UInt64 := 0xFFFFFFFFFFFFFFFF

/-- `MPSCRing::Slot`. -/
structure MpscSlot (α : Type) where
  data : α
  seq : UInt64 := 0

/-- Where a producer is. -/
inductive MpscProducer (α : Type) where
  | idle
  /-- In the loop of `alloc`, with the index `fetch_add` gave. -/
  | waiting (idx : UInt64)
  /-- In `alloc`, after the load that gave 0. -/
  | ready (idx : UInt64)
  /-- After `alloc`. -/
  | holding (idx : UInt64)
  /-- After `alloc`, with `x` written to the entry. -/
  | written (idx : UInt64) (x : α)

/-- Where the consumer is. -/
inductive MpscConsumer where
  | idle
  /-- After a `tryPop` that gave an entry. -/
  | popped
  /-- The entry has been read. -/
  | read
  deriving DecidableEq

/-- `class MPSCRing` with its threads. -/
structure MpscRing (τ α : Type) where
  slots : Nat → MpscSlot α
  claimIdx : UInt64 := 0
  readCursor : UInt64 := 1
  producers : τ → MpscProducer α := fun _ => .idle
  consumer : MpscConsumer := .idle

/-- The next access of a thread. -/
inductive MpscAction (τ α : Type) where
  | claim (t : τ)
  | load (t : τ)
  | mark (t : τ)
  | write (t : τ) (x : α)
  | commit (t : τ)
  | tryPop
  | read
  | consume

/-- What an access lets the outside see. -/
inductive MpscEvent (α : Type) where
  | silent
  /-- `commit(handle)` of an entry with `x` written to it. -/
  | committed (handle : UInt64) (x : α)
  /-- The consumer reads `x` from the entry of claim `idx`. -/
  | saw (idx : UInt64) (x : α)

namespace MpscRing

variable {τ α : Type}

/-- The ring at the start. -/
def init [Inhabited α] : MpscRing τ α where
  slots _ := { data := default }

/-- `slots_[idx % CAPACITY]`, the place. -/
def place (cap : Nat) (idx : UInt64) : Nat := idx.toNat % cap

/-- The slot the consumer looks at: `slots_[(read_cursor_ - 1) % CAPACITY]`. -/
def readPlace (cap : Nat) (s : MpscRing τ α) : Nat := place cap (s.readCursor - 1)

/-- Store to `seq` of a slot. -/
def storeSeq (s : MpscRing τ α) (i : Nat) (v : UInt64) : MpscRing τ α :=
  { s with slots := Function.update s.slots i { s.slots i with seq := v } }

/-- Store to `data` of a slot. -/
def storeData (s : MpscRing τ α) (i : Nat) (x : α) : MpscRing τ α :=
  { s with slots := Function.update s.slots i { s.slots i with data := x } }

/-- A producer goes on. -/
def goto [DecidableEq τ] (s : MpscRing τ α) (t : τ) (p : MpscProducer α) : MpscRing τ α :=
  { s with producers := Function.update s.producers t p }

/-- One access of a thread. -/
def step [DecidableEq τ] (cap : Nat) (s : MpscRing τ α) :
    MpscAction τ α → Option (MpscRing τ α × MpscEvent α)
  | .claim t =>
      match s.producers t with
      | .idle => some ({ s with claimIdx := s.claimIdx + 1 }.goto t (.waiting s.claimIdx), .silent)
      | _ => none
  | .load t =>
      match s.producers t with
      | .waiting idx =>
          if (s.slots (place cap idx)).seq ≠ 0 then some (s, .silent)
          else some (s.goto t (.ready idx), .silent)
      | _ => none
  | .mark t =>
      match s.producers t with
      | .ready idx =>
          some ((s.storeSeq (place cap idx) slotBusy).goto t (.holding idx), .silent)
      | _ => none
  | .write t x =>
      match s.producers t with
      | .holding idx => some ((s.storeData (place cap idx) x).goto t (.written idx x), .silent)
      | .written idx _ => some ((s.storeData (place cap idx) x).goto t (.written idx x), .silent)
      | _ => none
  | .commit t =>
      match s.producers t with
      | .written idx x =>
          some ((s.storeSeq (place cap idx) (idx + 1)).goto t .idle, .committed idx x)
      | _ => none
  | .tryPop =>
      match s.consumer with
      | .idle =>
          if (s.slots (readPlace cap s)).seq ≠ s.readCursor then some (s, .silent)
          else some ({ s with consumer := .popped }, .silent)
      | _ => none
  | .read =>
      match s.consumer with
      | .popped =>
          some ({ s with consumer := .read },
            .saw (s.readCursor - 1) (s.slots (readPlace cap s)).data)
      | _ => none
  | .consume =>
      match s.consumer with
      | .read =>
          some ({ s.storeSeq (readPlace cap s) 0 with
            readCursor := s.readCursor + 1, consumer := .idle }, .silent)
      | _ => none

end MpscRing

end NebulaX
