import NebulaX.Engine.Order

/-!
# `NebulaX.Engine.OrderMap`: the order index

`order_map.h`: a hash table with separate chaining from `order_id` to `Order*`. The chain
nodes come from a pool with a tagged free stack. A bucket whose chain reaches
`TREEIFY_THRESHOLD` nodes is converted: its entries are copied to one `std::map`
(`overflow_`) and every later access to the bucket goes there. The copied nodes stay
linked to the bucket and are never returned to the pool.

The calls run one after the other, so no compare-and-swap fails and the second look at
`state_[b]` inside `insert` sees what the first one saw. Two loops of the source can then
fail to end: a walk along a cyclic chain, and `goto retry` after a node of another bucket,
which would read the same words again. Both are `none` here. A walk gets one step more
than there are nodes: a longer one visits a node twice.
-/

set_option autoImplicit false

namespace NebulaX

open NebulaX.Lib

/-- `OrderMap::Node`. -/
structure Node where
  orderId : UInt64 := 0
  /-- The slot of the `Order*`. -/
  order : UInt32 := 0
  nextIdx : UInt32 := uint32Max
  bucket : UInt32 := 0
  deriving DecidableEq, Repr, Inhabited

/-- The values of `state_[b]`: 0, 1 and 2. -/
inductive BucketState where
  | chain
  | converting
  | treeified
  deriving DecidableEq, Repr, Inhabited

instance instStrictTotalOrderKey : IsStrictTotalOrder UInt64 (fun a b => a < b) where
  trichotomous _ _ hab hba :=
    UInt64.le_antisymm (UInt64.not_lt.mp hba) (UInt64.not_lt.mp hab)
  irrefl a := UInt64.lt_irrefl a
  trans _ _ _ := UInt64.lt_trans

/-- `class OrderMap`. -/
structure OrderMap where
  nodes : UInt32 → Node
  buckets : UInt32 → UInt32
  bucketLen : UInt32 → UInt16
  state : UInt32 → BucketState
  bucketMask : UInt32
  hashShift : UInt64
  capacity : Nat
  freeHead : TaggedIdx
  size : UInt64
  overflow : SortedMap UInt64 UInt32 (fun a b => a < b)

namespace OrderMap

/-- `TREEIFY_THRESHOLD`. -/
def treeifyThreshold : UInt16 := 8

/-- The doubling loop of `roundPow2`. `fuel` bounds the doublings: a `size_t` allows 64. -/
def roundPow2Loop (n : Nat) : Nat → Nat → Nat
  | 0, p => p
  | fuel + 1, p => if p < n then roundPow2Loop n fuel (p * 2) else p

/-- `OrderMap::roundPow2`, with its cast to `uint32_t`. -/
def roundPow2 (n : Nat) : UInt32 := (roundPow2Loop n 64 1).toUInt32

/-- `__builtin_ctz` of a positive number: its trailing zero bits. -/
def ctzLoop (x : UInt32) : Nat → UInt64 → UInt64
  | 0, k => k
  | fuel + 1, k => if x >>> k.toUInt32 &&& 1 = 1 then k else ctzLoop x fuel (k + 1)

/-- `OrderMap::OrderMap(capacity)`. It is `none` where the constructor does not come back
with a table: `capacity` 0 and 1 (the node loop runs past the array; `hash` shifts by 64),
and the capacities above `2 ^ 31`, for which `roundPow2` is cut to 0 and the bucket loop
runs over an empty array without an end. -/
def ofCapacity (capacity : Nat) : Option OrderMap :=
  if capacity < 2 ∨ roundPow2 capacity = 0 then none
  else some
    { nodes := fun i => { nextIdx := if i.toNat + 1 < capacity then i + 1 else uint32Max }
      buckets := fun _ => uint32Max
      bucketLen := fun _ => 0
      state := fun _ => .chain
      bucketMask := roundPow2 capacity - 1
      hashShift := 64 - ctzLoop (roundPow2 capacity) 32 0
      capacity := capacity
      freeHead := ⟨0, 0⟩
      size := 0
      overflow := .empty }

/-- `OrderMap::hash`: multiply by the golden constant, keep the high bits. -/
def hash (m : OrderMap) (id : UInt64) : UInt32 :=
  ((id * 0x9E3779B97F4A7C15) >>> m.hashShift).toUInt32

/-- Write one node. -/
def modifyNode (m : OrderMap) (idx : UInt32) (f : Node → Node) : OrderMap :=
  { m with nodes := Function.update m.nodes idx (f (m.nodes idx)) }

/-- `OrderMap::allocNode`. `none` is the returned `UINT32_MAX`. -/
def allocNode (m : OrderMap) : Option UInt32 × OrderMap :=
  if m.freeHead.idx = uint32Max then (none, m)
  else (some m.freeHead.idx,
    { m with freeHead := m.freeHead.swing (m.nodes m.freeHead.idx).nextIdx })

/-- `OrderMap::freeNode`. -/
def freeNode (m : OrderMap) (idx : UInt32) : OrderMap :=
  { m.modifyNode idx (fun n => { n with nextIdx := m.freeHead.idx }) with
    freeHead := m.freeHead.swing idx }

/-- Store an entry in `overflow_`. -/
def putOverflow (m : OrderMap) (orderId : UInt64) (order : UInt32) : OrderMap :=
  { m with overflow := m.overflow.insert orderId order }

/-- The copying loop of `treeify`. -/
def treeifyLoop (nodes : UInt32 → Node) :
    Nat → UInt32 → SortedMap UInt64 UInt32 (fun a b => a < b) →
      Option (SortedMap UInt64 UInt32 (fun a b => a < b))
  | 0, _, _ => none
  | fuel + 1, cur, overflow =>
      if cur = uint32Max then some overflow
      else treeifyLoop nodes fuel (nodes cur).nextIdx
        (overflow.insert (nodes cur).orderId (nodes cur).order)

/-- `OrderMap::treeify`: copy the chain of bucket `b` to `overflow_` and mark the bucket.
A bucket that is not a chain any more is left alone. -/
def treeify (m : OrderMap) (b : UInt32) : Option OrderMap :=
  if m.state b ≠ .chain then some m
  else do
    let overflow ← treeifyLoop m.nodes (m.capacity + 1) (m.buckets b) m.overflow
    return { m with
      overflow := overflow
      state := Function.update m.state b .treeified }

/-- The insert into `overflow_` that three branches of `insert` end with. -/
def insertOverflow (m : OrderMap) (orderId : UInt64) (order : UInt32) : OrderMap :=
  { m.putOverflow orderId order with size := m.size + 1 }

/-- The insert at the head of the chain of bucket `b`, with the allocated node `idx`. -/
def insertChain (m : OrderMap) (b idx : UInt32) (orderId : UInt64) (order : UInt32) :
    OrderMap :=
  { m.modifyNode idx (fun _ =>
      { orderId := orderId, order := order, nextIdx := m.buckets b, bucket := b }) with
    buckets := Function.update m.buckets b idx
    bucketLen := Function.update m.bucketLen b (m.bucketLen b + 1)
    size := m.size + 1 }

/-- `OrderMap::insert`. The Boolean is its result: `false` when the node pool is used up
and the entry is dropped. The second test of the exhaustion branch compares the whole
64-bit head with `UINT32_MAX`, so it needs the tag to be 0 too. -/
def insert (m : OrderMap) (orderId : UInt64) (order : UInt32) : Option (Bool × OrderMap) :=
  let b := m.hash orderId
  if m.state b ≠ .chain then some (true, m.insertOverflow orderId order)
  else if treeifyThreshold ≤ m.bucketLen b ∨ m.freeHead = ⟨0, uint32Max⟩ then do
    let m ← m.treeify b
    return (true, m.insertOverflow orderId order)
  else
    match m.allocNode with
    | (none, m) => some (false, m)
    | (some idx, m) =>
        let m := m.insertChain b idx orderId order
        if treeifyThreshold ≤ m.bucketLen b then do
          let m ← m.treeify b
          return (true, m)
        else some (true, m)

/-- The chain walk of `find`. -/
def findLoop (m : OrderMap) (b : UInt32) (orderId : UInt64) :
    Nat → UInt32 → Option (Option UInt32)
  | 0, _ => none
  | fuel + 1, idx =>
      if idx = uint32Max then some none
      else if (m.nodes idx).bucket ≠ b then none
      else if (m.nodes idx).orderId = orderId then some (some (m.nodes idx).order)
      else findLoop m b orderId fuel (m.nodes idx).nextIdx

/-- `OrderMap::find`. The inner `none` is `nullptr`. -/
def find (m : OrderMap) (orderId : UInt64) : Option (Option UInt32) :=
  let b := m.hash orderId
  if m.state b ≠ .chain then some (m.overflow.find? orderId)
  else m.findLoop b orderId (m.capacity + 1) (m.buckets b)

/-- The bookkeeping after a node `idx` was unlinked from the chain of bucket `b`. -/
def dropNode (m : OrderMap) (b idx : UInt32) : OrderMap :=
  { m.freeNode idx with
    bucketLen := Function.update m.bucketLen b (m.bucketLen b - 1)
    size := m.size - 1 }

/-- The search for the predecessor in `erase`: `idx` is a node that does not hold the
key. -/
def eraseLoop (m : OrderMap) (b : UInt32) (orderId : UInt64) :
    Nat → UInt32 → Option OrderMap
  | 0, _ => none
  | fuel + 1, idx =>
      if (m.nodes idx).bucket ≠ b then none
      else
        let next := (m.nodes idx).nextIdx
        if next = uint32Max then some m
        else if (m.nodes next).orderId = orderId then
          some ((m.modifyNode idx fun n =>
            { n with nextIdx := (m.nodes next).nextIdx }).dropNode b next)
        else eraseLoop m b orderId fuel next

/-- `OrderMap::erase`. -/
def erase (m : OrderMap) (orderId : UInt64) : Option OrderMap :=
  let b := m.hash orderId
  if m.state b ≠ .chain then
    match m.overflow.find? orderId with
    | some _ => some { m with overflow := m.overflow.erase orderId, size := m.size - 1 }
    | none => some m
  else
    let idx := m.buckets b
    if idx = uint32Max then some m
    else if (m.nodes idx).orderId = orderId then
      some ({ m with
        buckets := Function.update m.buckets b (m.nodes idx).nextIdx }.dropNode b idx)
    else m.eraseLoop b orderId (m.capacity + 1) idx

/-- `OrderMap::contains`. -/
def contains (m : OrderMap) (orderId : UInt64) : Option Bool :=
  (m.find orderId).map Option.isSome

end OrderMap

end NebulaX
