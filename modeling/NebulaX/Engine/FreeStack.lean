import NebulaX.Engine.Order

/-!
# `NebulaX.Engine.FreeStack`: the loops on a tagged free stack

The slots of `OrderPool` and the nodes of `OrderMap` are kept on a Treiber stack that is threaded
through a field of the slots. The head is a tag and an index in one word, and every exchange that
succeeds adds one to the tag. `OrderPool::allocate` and `OrderMap::allocNode` have one loop, and so
have `OrderPool::deallocate` and `OrderMap::freeNode`.

The loops are cut at their accesses to shared memory: the load of the head, the load or the store
of a link, and the exchange. An exchange that fails loads the head again. It may fail for no reason
(`compare_exchange_weak`).
-/

set_option autoImplicit false

namespace NebulaX

/-- Where a thread is in one of the loops. `fh` is the head it has loaded. -/
inductive StackPc where
  /-- It takes a slot and is before the load of the link. -/
  | popLoad (fh : TaggedIdx)
  /-- It takes a slot and is before the exchange. -/
  | popSwap (fh : TaggedIdx) (next : UInt32)
  /-- It gives `idx` back and is before the store of the link. -/
  | pushStore (idx : UInt32) (fh : TaggedIdx)
  /-- It gives `idx` back and is before the exchange. -/
  | pushSwap (idx : UInt32) (fh : TaggedIdx)
  deriving DecidableEq, Repr

/-- What an access of the loop comes to. -/
inductive StackMove where
  /-- The link was loaded. -/
  | reads (pc : StackPc)
  /-- `next` is stored to the link of `idx`. -/
  | links (idx next : UInt32) (pc : StackPc)
  /-- The exchange failed and the head was loaded again. -/
  | retries (pc : StackPc)
  /-- The exchange failed, and the stack is empty now. -/
  | findsNone
  /-- The exchange took `idx` from the stack. -/
  | pops (idx : UInt32) (head : TaggedIdx)
  /-- The exchange put `idx` on the stack. -/
  | pushes (idx : UInt32) (head : TaggedIdx)

namespace StackPc

/-- After the load of the head, to take a slot. The loop does not begin on an empty stack. -/
def pop? (head : TaggedIdx) : Option StackPc :=
  if head.idx = uint32Max then none else some (.popLoad head)

/-- After the load of the head, to give `idx` back. -/
def push (idx : UInt32) (head : TaggedIdx) : StackPc := .pushStore idx head

/-- The next access. `spurious` makes an exchange fail. -/
def move (head : TaggedIdx) (link : UInt32 → UInt32) (spurious : Bool) : StackPc → StackMove
  | .popLoad fh => .reads (.popSwap fh (link fh.idx))
  | .popSwap fh next =>
      if head = fh ∧ spurious = false then .pops fh.idx (fh.swing next)
      else match pop? head with
        | none => .findsNone
        | some pc => .retries pc
  | .pushStore idx fh => .links idx fh.idx (.pushSwap idx fh)
  | .pushSwap idx fh =>
      if head = fh ∧ spurious = false then .pushes idx (fh.swing idx)
      else .retries (push idx head)

end StackPc

end NebulaX
