import NebulaX.Engine.MatchingEngine
import NebulaX.Lib.Trace

/-!
# `NebulaX.Engine.Run`: serial runs of engine calls

A run is a list of calls executed one after the other. `exec` is one call, and the machine
whose runs `Lib.run` and `Lib.Trace` speak about.
-/

set_option autoImplicit false

namespace NebulaX

/-- One call of the ITCH-level API. -/
inductive Call where
  | add (locate orderRef : UInt64) (side : Side) (price quantity : UInt32) (userId : UInt64)
      (tif : OrderTif)
  | cancel (locate orderRef userId : UInt64)
  | cancelShares (locate orderRef : UInt64) (shares : UInt32) (userId : UInt64)
  | replace (locate oldRef newRef : UInt64) (side : Side) (price quantity : UInt32)
      (userId : UInt64)
  deriving DecidableEq, Repr, Inhabited

namespace Call

/-- The locate a call is addressed to. -/
def locate : Call → UInt64
  | .add l .. => l
  | .cancel l .. => l
  | .cancelShares l .. => l
  | .replace l .. => l

/-- Whether the call may draw a sequence number. -/
def draws : Call → Bool
  | .add .. => true
  | .replace .. => true
  | _ => false

/-- The reference and the user by which a call names an order. -/
def named? : Call → Option (UInt64 × UInt64)
  | .add .. => none
  | .cancel _ ref userId => some (ref, userId)
  | .cancelShares _ ref _ userId => some (ref, userId)
  | .replace _ oldRef _ _ _ _ userId => some (oldRef, userId)

end Call

namespace MatchingEngine

/-- Execute one call. -/
def exec (e : MatchingEngine) : Call → Option (MatchingEngine × List BinaryResponse)
  | .add locate orderRef side price quantity userId tif =>
      e.processAdd locate orderRef side price quantity userId tif
  | .cancel locate orderRef userId => e.processCancel locate orderRef userId
  | .cancelShares locate orderRef shares userId =>
      e.processCancelShares locate orderRef shares userId
  | .replace locate oldRef newRef side price quantity userId =>
      e.processReplace locate oldRef newRef side price quantity userId

end MatchingEngine

end NebulaX
