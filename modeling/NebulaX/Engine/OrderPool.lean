import NebulaX.Engine.Order

/-!
# `NebulaX.Engine.OrderPool`: the slot pool

`order_pool.h`: one array of `Order` slots and a Treiber stack of the free ones, threaded
through `pool_next_free`. The calls modelled here run one after the other, so every
compare-and-swap succeeds at its first try and each call is one state change.

The storage is a function from slot numbers. A slot number is an array index below
`capacity`; nothing reads past it in a well-formed state.
-/

set_option autoImplicit false

namespace NebulaX

/-- `class OrderPool`. -/
structure OrderPool where
  storage : UInt32 → Order
  capacity : Nat
  freeHead : TaggedIdx
  size : UInt64

namespace OrderPool

/-- `OrderPool::OrderPool(capacity)` with `initFreeList`: slot `i` is followed by `i + 1`,
the last slot by nothing. -/
def ofCapacity (capacity : Nat) : OrderPool where
  storage i := { poolNextFree := if i.toNat + 1 < capacity then i + 1 else uint32Max }
  capacity := capacity
  freeHead := ⟨0, 0⟩
  size := 0

/-- The body of `initFreeList` and of `rebuildFreelist`: every slot goes to the free list, in
the order of the array. What else stands in the slots stays there. -/
def chainFree (p : OrderPool) : OrderPool :=
  { p with
    storage := fun i =>
      if i.toNat < p.capacity then
        { p.storage i with poolNextFree := if i.toNat + 1 < p.capacity then i + 1 else uint32Max }
      else p.storage i
    freeHead := ⟨0, 0⟩
    size := 0 }

/-- `OrderPool::initFreeList`. -/
def initFreeList (p : OrderPool) : OrderPool := p.chainFree

/-- `OrderPool::rebuildFreelist`. -/
def rebuildFreelist (p : OrderPool) : OrderPool := p.chainFree

/-- `OrderPool::OrderPool(external_storage, capacity, init_free)`: a pool over an array that
exists already. -/
def ofStorage (storage : UInt32 → Order) (capacity : Nat) (initFree : Bool) : OrderPool :=
  let p : OrderPool := { storage := storage, capacity := capacity, freeHead := ⟨0, 0⟩, size := 0 }
  if initFree then p.initFreeList else p

/-- Write one slot. -/
def modify (p : OrderPool) (idx : UInt32) (f : Order → Order) : OrderPool :=
  { p with storage := Function.update p.storage idx (f (p.storage idx)) }

/-- `OrderPool::allocate`: pop the stack. `none` is `nullptr`. -/
def allocate (p : OrderPool) : Option UInt32 × OrderPool :=
  if p.freeHead.idx = uint32Max then (none, p)
  else
    let head := p.freeHead.idx
    (some head, { p with
      freeHead := p.freeHead.swing (p.storage head).poolNextFree
      size := p.size + 1 })

/-- `OrderPool::deallocate(idx)`: push the slot. -/
def deallocate (p : OrderPool) (idx : UInt32) : OrderPool :=
  { p.modify idx (fun o => { o with poolNextFree := p.freeHead.idx }) with
    freeHead := p.freeHead.swing idx
    size := p.size - 1 }

end OrderPool

end NebulaX
