import NebulaX.Engine.FreeStack
import NebulaX.Engine.OrderPool

/-!
# `NebulaX.Engine.PoolThreads`: the slot pool under several threads

`OrderPool::allocate` and `OrderPool::deallocate` as steps of threads. A call is a load of
`free_head_`, the loop of `FreeStack`, and a change of `size_`. The slots that were returned and
are not given back are held by the program around the pool: any thread may give such a slot back,
and it may be written in whole, `pool_next_free` with it.
-/

set_option autoImplicit false

namespace NebulaX

/-- Where a thread is. -/
inductive PoolThread where
  | idle
  | stack (pc : StackPc)
  /-- In `allocate`, before `size_.fetch_add`. -/
  | counting (idx : UInt32)
  /-- In `deallocate`, before `size_.fetch_sub`. -/
  | uncounting
  deriving DecidableEq, Repr

/-- The pool with its threads. -/
structure PoolThreads (τ : Type) where
  pool : OrderPool
  threads : τ → PoolThread
  held : List UInt32

/-- What happens next. -/
inductive PoolAction (τ : Type) where
  /-- A thread calls `allocate` and loads the head. -/
  | allocate (t : τ)
  /-- A thread calls `deallocate(idx)` and loads the head. -/
  | deallocate (t : τ) (idx : UInt32)
  /-- The next access of a thread that is in a call. -/
  | next (t : τ) (spurious : Bool)
  /-- A held slot is written. -/
  | write (idx : UInt32) (o : Order)

/-- What a step comes to. -/
inductive PoolEvent (τ : Type) where
  | silent
  /-- The head was loaded. -/
  | loaded (t : τ)
  /-- The head was loaded, the stack is empty, and `allocate` returns `nullptr`. -/
  | returnedNull (t : τ)
  /-- An exchange succeeded. -/
  | swung (t : τ)
  /-- `allocate` returns. -/
  | returned (t : τ) (idx : UInt32)
  /-- `deallocate` returns. -/
  | done (t : τ)
  deriving DecidableEq

namespace OrderPool

/-- The field the free list goes through. -/
def link (p : OrderPool) (i : UInt32) : UInt32 := (p.storage i).poolNextFree

/-- Store to `pool_next_free`. -/
def setLink (p : OrderPool) (idx next : UInt32) : OrderPool :=
  p.modify idx fun o => { o with poolNextFree := next }

end OrderPool

namespace PoolThreads

variable {τ : Type}

/-- The pool before the first call. -/
def start (p : OrderPool) : PoolThreads τ where
  pool := p
  threads _ := .idle
  held := []

variable [DecidableEq τ]

/-- A thread goes on. -/
def goto (s : PoolThreads τ) (t : τ) (p : PoolThread) : PoolThreads τ :=
  { s with threads := Function.update s.threads t p }

/-- What a move on the stack does to the pool and to its thread. -/
def perform (s : PoolThreads τ) (t : τ) : StackMove → PoolThreads τ × PoolEvent τ
  | .reads pc => (s.goto t (.stack pc), .silent)
  | .links idx next pc => ({ s with pool := s.pool.setLink idx next }.goto t (.stack pc), .silent)
  | .retries pc => (s.goto t (.stack pc), .loaded t)
  | .findsNone => (s.goto t .idle, .returnedNull t)
  | .pops idx head =>
      ({ s with pool := { s.pool with freeHead := head } }.goto t (.counting idx), .swung t)
  | .pushes _ head =>
      ({ s with pool := { s.pool with freeHead := head } }.goto t .uncounting, .swung t)

/-- One step. -/
def step (s : PoolThreads τ) : PoolAction τ → Option (PoolThreads τ × PoolEvent τ)
  | .allocate t =>
      match s.threads t with
      | .idle =>
          match StackPc.pop? s.pool.freeHead with
          | none => some (s, .returnedNull t)
          | some pc => some (s.goto t (.stack pc), .loaded t)
      | _ => none
  | .deallocate t idx =>
      match s.threads t with
      | .idle =>
          if idx ∈ s.held then
            some ({ s with held := s.held.erase idx }.goto t
              (.stack (StackPc.push idx s.pool.freeHead)), .loaded t)
          else none
      | _ => none
  | .next t spurious =>
      match s.threads t with
      | .idle => none
      | .stack pc => some (s.perform t (pc.move s.pool.freeHead s.pool.link spurious))
      | .counting idx =>
          some ({ s with
            pool := { s.pool with size := s.pool.size + 1 }
            held := idx :: s.held }.goto t .idle, .returned t idx)
      | .uncounting =>
          some ({ s with pool := { s.pool with size := s.pool.size - 1 } }.goto t .idle, .done t)
  | .write idx o =>
      if idx ∈ s.held then some ({ s with pool := s.pool.modify idx fun _ => o }, .silent)
      else none

end PoolThreads

end NebulaX
