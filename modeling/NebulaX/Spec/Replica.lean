import NebulaX.Spec.Exchange

/-!
# `NebulaX.Spec.Replica`: a client that follows the answers

A client that is told every call and its answer keeps a copy of all books. It does not match: which
orders traded and for how much it reads off the trade frames, and whether an order rests, has gone
or has lost shares off the frame at the end.
-/

set_option autoImplicit false

namespace NebulaX

/-- The trades an answer reports. -/
def reportedTrades (out : List BinaryResponse) : List Trade :=
  out.filterMap fun
    | .trade t => some t
    | _ => none

/-- The books as a client sees them. -/
abbrev BookReplica := Place → List OrderInfo

namespace BookReplica

/-- A queue after a trade: the order it names has lost the quantity, or has gone with it. -/
def traded (ref : UInt64) (quantity : UInt32) (q : List OrderInfo) : List OrderInfo :=
  q.filterMap fun o =>
    if o.orderId = ref then
      if o.remainingQty = quantity then none else some (o.filledBy quantity)
    else some o

/-- The books after a trade. -/
def applyTrade (m : BookReplica) (t : Trade) : BookReplica :=
  Function.update m (t.locate, t.side.bookSide)
    (traded t.orderRef t.quantity (m (t.locate, t.side.bookSide)))

/-- The books without a reference. -/
def drop (m : BookReplica) (ref : UInt64) : BookReplica := fun π => Queue.without ref (m π)

/-- The answer to an order that was submitted: its trades, and the order itself if it rests. -/
def submit (m : BookReplica) (locate : UInt64) (o : OrderInfo) (out : List BinaryResponse) :
    BookReplica :=
  let trades := reportedTrades out
  let m := trades.foldl applyTrade m
  if .ok o.orderId ∈ out then
    Function.update m (locate, o.side.bookSide) (Queue.insert o.side.bookSide
      (trades.foldl (fun o t => o.filledBy t.quantity) o) (m (locate, o.side.bookSide)))
  else m

/-- Follow one call. -/
def follow (m : BookReplica) (c : Call) (out : List BinaryResponse) : BookReplica :=
  match c with
  | .add locate ref side price quantity userId tif =>
      m.submit locate (Exchange.incoming ref side (MatchingEngine.limitPrice tif side price)
        quantity userId) out
  | .cancel _ ref _ => if .cancelled ref ∈ out then m.drop ref else m
  | .cancelShares _ ref shares _ =>
      if .cancelled ref ∈ out then m.drop ref
      else if .ok ref ∈ out then fun π =>
        Queue.modify ref (fun o => { o with remainingQty := o.remainingQty - shares }) (m π)
      else m
  | .replace locate oldRef newRef side price quantity _ =>
      if out = [.error .orderNotFound] then m
      else (m.drop oldRef).submit locate (Exchange.incoming newRef side price quantity newRef) out

/-- Follow a run. -/
def followAll (m : BookReplica) (h : List (Call × List BinaryResponse)) : BookReplica :=
  h.foldl (fun m x => m.follow x.1 x.2) m

end BookReplica

end NebulaX
