import NebulaX.Engine.FreeStack
import NebulaX.Engine.OrderMap

/-!
# `NebulaX.Engine.MapThreads`: the order index under several threads

`OrderMap::insert`, `find` and `erase` as steps of threads, cut at their accesses to shared memory:
loads, stores, exchanges, and the counters. `allocNode` and `freeNode` are the loops of `FreeStack`.
A section under `overflow_lock_` is one step, the copying section of `treeify` among them; a chain
that does not end keeps the thread in it for ever, and the step is `none`. As the sections are
steps, no thread finds the lock taken, and waiting for it is not modelled. A weak exchange may fail
for no reason. All threads see the accesses in one order.

A call begins with the load of `state_[b]`, and that load is the step of the call.
-/

set_option autoImplicit false

namespace NebulaX

/-- What an access leads to. `π` are the places of the call and `ρ` its results. -/
inductive MapNext (π ρ : Type) where
  | goto (pc : π)
  /-- `free_head_` was loaded. -/
  | loaded (pc : π)
  /-- `free_head_` was exchanged. -/
  | swung (pc : π)
  | done (result : ρ)

/-- Where a thread is in `insert`. -/
inductive InsertPc where
  /-- Before the section that stores to `overflow_`. -/
  | overflow
  /-- Before the load of `bucket_len_[b]`. -/
  | len
  /-- Before the comparison of `free_head_`. -/
  | full
  /-- In `treeify`, before the exchange of `state_[b]`. `linked` says that the entry is in the
  chain already. -/
  | treeify (linked : Bool)
  /-- In `treeify`, before the section that copies the chain. -/
  | copy (linked : Bool)
  /-- In `allocNode`, before the load of `free_head_`. -/
  | alloc
  | allocLoop (pc : StackPc)
  /-- Before the stores to `order_id`, `order` and `bucket` of the node. -/
  | storeId (idx : UInt32)
  | storeOrder (idx : UInt32)
  | storeBucket (idx : UInt32)
  /-- Before the second look at `state_[b]`. -/
  | recheck (idx : UInt32)
  /-- Before the load of `buckets_[b]`. -/
  | head (idx : UInt32)
  /-- Before the store to `next_idx`. -/
  | storeNext (idx head : UInt32)
  /-- Before the exchange of `buckets_[b]`. -/
  | link (idx head : UInt32)
  /-- After an exchange that failed, before the load of `state_[b]`. -/
  | retry (idx head : UInt32)
  /-- In `freeNode`, before the load of `free_head_`. -/
  | free (idx : UInt32)
  | freeLoop (pc : StackPc)
  /-- Before the counters. -/
  | addLen
  | addSize
  /-- Before the last load of `bucket_len_[b]`. -/
  | lenAfter
  deriving DecidableEq, Repr

/-- Where a thread is in `find`. -/
inductive FindPc where
  | overflow
  /-- At `retry`, before the load of `buckets_[b]`. -/
  | head
  /-- At a node, before the load of `bucket`, `order_id`, `order` and `next_idx`. -/
  | bucket (idx : UInt32)
  | id (idx : UInt32)
  | order (idx : UInt32)
  | next (idx : UInt32)
  deriving DecidableEq, Repr

/-- Where a thread is in `erase`. -/
inductive ErasePc where
  | overflow
  /-- At `retry`, before the load of `buckets_[b]`. -/
  | head
  /-- Before the load of `order_id` of the first node. -/
  | headId (idx : UInt32)
  /-- The first node holds the key: before the load of its `next_idx`. -/
  | headNext (idx : UInt32)
  /-- Before the exchange of `buckets_[b]`. -/
  | unlinkHead (idx nxt : UInt32)
  /-- After an exchange of `buckets_[b]` that failed, before the load of `order_id`. -/
  | headAgain (idx : UInt32)
  /-- At a node that does not hold the key, before the loads of `bucket` and `next_idx`. -/
  | bucket (idx : UInt32)
  | next (idx : UInt32)
  /-- Before the loads of `order_id` and `next_idx` of the node after it. -/
  | nextId (idx next : UInt32)
  | nextNext (idx next : UInt32)
  /-- Before the exchange of `next_idx`. -/
  | unlink (idx next nxt2 : UInt32)
  /-- In `freeNode`, before the load of `free_head_`. -/
  | free (idx : UInt32)
  | freeLoop (pc : StackPc)
  /-- Before the counters. -/
  | subLen
  | subSize
  deriving DecidableEq, Repr

namespace OrderMap

/-- The field that chains and the free stack go through. -/
def link (m : OrderMap) (i : UInt32) : UInt32 := (m.nodes i).nextIdx

/-- Store to `next_idx`. -/
def setLink (m : OrderMap) (idx next : UInt32) : OrderMap :=
  m.modifyNode idx fun n => { n with nextIdx := next }

/-- A move of the loop of `allocNode`. Without a node `insert` returns `false`. -/
def allocMove (m : OrderMap) : StackMove → OrderMap × MapNext InsertPc Bool
  | .reads pc => (m, .goto (.allocLoop pc))
  | .links idx next pc => (m.setLink idx next, .goto (.allocLoop pc))
  | .retries pc => (m, .loaded (.allocLoop pc))
  | .findsNone => (m, .done false)
  | .pops idx head => ({ m with freeHead := head }, .swung (.storeId idx))
  | .pushes _ head => ({ m with freeHead := head }, .swung .overflow)

/-- A move of the loop of `freeNode`. `again` is the place in the loop, and the call goes on at
`after`. -/
def freeMove {π ρ : Type} (m : OrderMap) (again : StackPc → π) (after : π) :
    StackMove → OrderMap × MapNext π ρ
  | .reads pc => (m, .goto (again pc))
  | .links idx next pc => (m.setLink idx next, .goto (again pc))
  | .retries pc => (m, .loaded (again pc))
  | .findsNone => (m, .goto after)
  | .pops _ head => ({ m with freeHead := head }, .swung after)
  | .pushes _ head => ({ m with freeHead := head }, .swung after)

/-- The section of `treeify` under the lock. -/
def copyChain (m : OrderMap) (b : UInt32) : Option OrderMap :=
  (treeifyLoop m.nodes (m.capacity + 1) (m.buckets b) m.overflow).map fun overflow =>
    { m with overflow := overflow, state := Function.update m.state b .treeified }

/-- After `treeify`: the entry goes to `overflow_`, or it is in the chain already. -/
def afterTreeify : Bool → MapNext InsertPc Bool
  | false => .goto .overflow
  | true => .done true

/-- The next access of `insert`. -/
def insertStep (m : OrderMap) (orderId : UInt64) (order : UInt32) (spurious : Bool) :
    InsertPc → Option (OrderMap × MapNext InsertPc Bool)
  | .overflow => some (m.insertOverflow orderId order, .done true)
  | .len =>
      some (m, if treeifyThreshold ≤ m.bucketLen (m.hash orderId) then .goto (.treeify false)
        else .goto .full)
  | .full =>
      some (m, if m.freeHead = ⟨0, uint32Max⟩ then .goto (.treeify false) else .goto .alloc)
  | .treeify linked =>
      let b := m.hash orderId
      if m.state b = .chain then
        some ({ m with state := Function.update m.state b .converting }, .goto (.copy linked))
      else some (m, afterTreeify linked)
  | .copy linked => (m.copyChain (m.hash orderId)).map fun m => (m, afterTreeify linked)
  | .alloc =>
      match StackPc.pop? m.freeHead with
      | none => some (m, .done false)
      | some pc => some (m, .loaded (.allocLoop pc))
  | .allocLoop pc => some (m.allocMove (pc.move m.freeHead m.link spurious))
  | .storeId idx =>
      some (m.modifyNode idx fun n => { n with orderId := orderId }, .goto (.storeOrder idx))
  | .storeOrder idx =>
      some (m.modifyNode idx fun n => { n with order := order }, .goto (.storeBucket idx))
  | .storeBucket idx =>
      some (m.modifyNode idx fun n => { n with bucket := m.hash orderId }, .goto (.recheck idx))
  | .recheck idx =>
      some (m, if m.state (m.hash orderId) ≠ .chain then .goto (.free idx) else .goto (.head idx))
  | .head idx => some (m, .goto (.storeNext idx (m.buckets (m.hash orderId))))
  | .storeNext idx head => some (m.setLink idx head, .goto (.link idx head))
  | .link idx head =>
      let b := m.hash orderId
      if m.buckets b = head ∧ spurious = false then
        some ({ m with buckets := Function.update m.buckets b idx }, .goto .addLen)
      else some (m, .goto (.retry idx (m.buckets b)))
  | .retry idx head =>
      some (m, if m.state (m.hash orderId) ≠ .chain then .goto (.free idx)
        else .goto (.storeNext idx head))
  | .free idx => some (m, .loaded (.freeLoop (StackPc.push idx m.freeHead)))
  | .freeLoop pc =>
      some (m.freeMove .freeLoop .overflow (pc.move m.freeHead m.link spurious))
  | .addLen =>
      let b := m.hash orderId
      some ({ m with bucketLen := Function.update m.bucketLen b (m.bucketLen b + 1) },
        .goto .addSize)
  | .addSize => some ({ m with size := m.size + 1 }, .goto .lenAfter)
  | .lenAfter =>
      some (m, if treeifyThreshold ≤ m.bucketLen (m.hash orderId) then .goto (.treeify true)
        else .done true)

/-- A walk of `find` arrives at `idx`. -/
def findAt (idx : UInt32) : MapNext FindPc (Option UInt32) :=
  if idx = uint32Max then .done none else .goto (.bucket idx)

/-- The next access of `find`. -/
def findStep (m : OrderMap) (orderId : UInt64) : FindPc → MapNext FindPc (Option UInt32)
  | .overflow => .done (m.overflow.find? orderId)
  | .head => findAt (m.buckets (m.hash orderId))
  | .bucket idx =>
      if (m.nodes idx).bucket ≠ m.hash orderId then .goto .head else .goto (.id idx)
  | .id idx => if (m.nodes idx).orderId = orderId then .goto (.order idx) else .goto (.next idx)
  | .order idx => .done (some (m.nodes idx).order)
  | .next idx => findAt (m.link idx)

/-- The section of `erase` under the lock. -/
def eraseOverflow (m : OrderMap) (orderId : UInt64) : OrderMap :=
  match m.overflow.find? orderId with
  | some _ => { m with overflow := m.overflow.erase orderId, size := m.size - 1 }
  | none => m

/-- The next access of `erase`. -/
def eraseStep (m : OrderMap) (orderId : UInt64) (spurious : Bool) :
    ErasePc → OrderMap × MapNext ErasePc Unit
  | .overflow => (m.eraseOverflow orderId, .done ())
  | .head =>
      let idx := m.buckets (m.hash orderId)
      (m, if idx = uint32Max then .done () else .goto (.headId idx))
  | .headId idx =>
      (m, if (m.nodes idx).orderId = orderId then .goto (.headNext idx) else .goto (.bucket idx))
  | .headNext idx => (m, .goto (.unlinkHead idx (m.link idx)))
  | .unlinkHead idx nxt =>
      let b := m.hash orderId
      if m.buckets b = idx ∧ spurious = false then
        ({ m with buckets := Function.update m.buckets b nxt }, .goto (.free idx))
      else (m, .goto (.headAgain (m.buckets b)))
  | .headAgain idx =>
      (m, if (m.nodes idx).orderId ≠ orderId then .goto .head else .goto (.headNext idx))
  | .bucket idx =>
      (m, if (m.nodes idx).bucket ≠ m.hash orderId then .goto .head else .goto (.next idx))
  | .next idx =>
      let next := m.link idx
      (m, if next = uint32Max then .done () else .goto (.nextId idx next))
  | .nextId idx next =>
      (m, if (m.nodes next).orderId = orderId then .goto (.nextNext idx next)
        else .goto (.bucket next))
  | .nextNext idx next => (m, .goto (.unlink idx next (m.link next)))
  | .unlink idx next nxt2 =>
      if m.link idx = next ∧ spurious = false then (m.setLink idx nxt2, .goto (.free next))
      else (m, .goto .head)
  | .free idx => (m, .loaded (.freeLoop (StackPc.push idx m.freeHead)))
  | .freeLoop pc => m.freeMove .freeLoop .subLen (pc.move m.freeHead m.link spurious)
  | .subLen =>
      let b := m.hash orderId
      ({ m with bucketLen := Function.update m.bucketLen b (m.bucketLen b - 1) }, .goto .subSize)
  | .subSize => ({ m with size := m.size - 1 }, .done ())

end OrderMap

/-- Where a thread is. -/
inductive MapThread where
  | idle
  | insert (orderId : UInt64) (order : UInt32) (pc : InsertPc)
  | find (orderId : UInt64) (pc : FindPc)
  | erase (orderId : UInt64) (pc : ErasePc)
  deriving DecidableEq, Repr

/-- The index with its threads. -/
structure MapThreads (τ : Type) where
  map : OrderMap
  threads : τ → MapThread

/-- What happens next. -/
inductive MapAction (τ : Type) where
  | insert (t : τ) (orderId : UInt64) (order : UInt32)
  | find (t : τ) (orderId : UInt64)
  | erase (t : τ) (orderId : UInt64)
  /-- The next access of a thread that is in a call. -/
  | next (t : τ) (spurious : Bool)

/-- What a step comes to. -/
inductive MapEvent (τ : Type) where
  | silent
  /-- `free_head_` was loaded. -/
  | loaded (t : τ)
  /-- `free_head_` was exchanged. -/
  | swung (t : τ)
  /-- The calls return. -/
  | inserted (orderId : UInt64) (order : UInt32) (result : Bool)
  | found (orderId : UInt64) (result : Option UInt32)
  | erased (orderId : UInt64)
  deriving DecidableEq

namespace MapThreads

variable {τ : Type}

/-- The index before the first call. -/
def start (m : OrderMap) : MapThreads τ := ⟨m, fun _ => .idle⟩

variable [DecidableEq τ]

/-- A thread goes on. -/
def goto (s : MapThreads τ) (t : τ) (p : MapThread) : MapThreads τ :=
  { s with threads := Function.update s.threads t p }

/-- A call of thread `t` went on: `again` is its place, and `ends` what it returns. -/
def after {π ρ : Type} (s : MapThreads τ) (t : τ) (m : OrderMap) (again : π → MapThread)
    (ends : ρ → MapEvent τ) : MapNext π ρ → MapThreads τ × MapEvent τ
  | .goto pc => ({ s with map := m }.goto t (again pc), .silent)
  | .loaded pc => ({ s with map := m }.goto t (again pc), .loaded t)
  | .swung pc => ({ s with map := m }.goto t (again pc), .swung t)
  | .done result => ({ s with map := m }.goto t .idle, ends result)

/-- A thread calls. -/
def call (s : MapThreads τ) (t : τ) (p : MapThread) : Option (MapThreads τ × MapEvent τ) :=
  match s.threads t with
  | .idle => some (s.goto t p, .silent)
  | _ => none

/-- One step. -/
def step (s : MapThreads τ) : MapAction τ → Option (MapThreads τ × MapEvent τ)
  | .insert t k v =>
      s.call t (.insert k v (if s.map.state (s.map.hash k) ≠ .chain then .overflow else .len))
  | .find t k =>
      s.call t (.find k (if s.map.state (s.map.hash k) ≠ .chain then .overflow else .head))
  | .erase t k =>
      s.call t (.erase k (if s.map.state (s.map.hash k) ≠ .chain then .overflow else .head))
  | .next t spurious =>
      match s.threads t with
      | .idle => none
      | .insert k v pc =>
          (s.map.insertStep k v spurious pc).map fun (m, n) =>
            s.after t m (.insert k v) (.inserted k v) n
      | .find k pc => some (s.after t s.map (.find k) (.found k) (s.map.findStep k pc))
      | .erase k pc =>
          let (m, n) := s.map.eraseStep k spurious pc
          some (s.after t m (.erase k) (fun _ => .erased k) n)

end MapThreads

end NebulaX
