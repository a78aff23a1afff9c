import NebulaX.Engine.Run
import NebulaX.Server.ItchParser

/-!
# `NebulaX.Server.TcpServer`: dispatching messages to the engine

`TcpServer::processItchMessage`: a message is parsed and its event handed to the engine. ITCH
has no account field, so the owner of an order is its own reference.
-/

set_option autoImplicit false

namespace NebulaX

/-- What `processItchMessage` works on: `engine_` and `itch_parser_`. -/
structure TcpServer where
  engine : MatchingEngine
  itchParser : ItchParser := {}

namespace TcpServer

/-- The engine call an event leads to. A replace takes its side from the order it names and
is not passed on if there is none. -/
def dispatch (e : MatchingEngine) (ev : ItchEvent) :
    Option (MatchingEngine × List BinaryResponse) :=
  match ev with
  | .add locate orderRef side shares price =>
      e.processAdd locate.toUInt64 orderRef side price shares orderRef .day
  | .delete locate orderRef => e.processCancel locate.toUInt64 orderRef orderRef
  | .cancel locate orderRef shares =>
      e.processCancelShares locate.toUInt64 orderRef shares orderRef
  | .replace locate orderRef newOrderRef shares price =>
      match e.bookFor locate.toUInt64 with
      | none => some (e, [.error .orderNotFound])
      | some e => do
          match ← (e.book locate.toUInt64).findOrder orderRef with
          | none => return (e, [.error .orderNotFound])
          | some old =>
              e.processReplace locate.toUInt64 orderRef newOrderRef (e.pool.storage old).side
                price shares orderRef
  | .book locate =>
      let (e, report) := e.getBook locate.toUInt64
      some (e, [.book report])

/-- `TcpServer::processItchMessage`. -/
def processItchMessage (s : TcpServer) (msg : List UInt8) :
    Option (TcpServer × List BinaryResponse) :=
  match s.itchParser.feed msg with
  | (p, none) => some ({ s with itchParser := p }, [])
  | (p, some ev) => do
      let (e, out) ← dispatch s.engine ev
      return ({ engine := e, itchParser := p }, out)

end TcpServer

end NebulaX
