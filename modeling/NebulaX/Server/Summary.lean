import NebulaX.Engine.Run

/-!
# `NebulaX.Server.Summary`: the ticks of the server

`TcpServer::logSummary`, which the event loop calls after every batch of completions, and
`MatchingEngine::checkpointIfNeeded`, which it calls when a summary is due. Shared memory is
attached, as `main` attaches it, and a checkpoint that is forked succeeds.
-/

set_option autoImplicit false

namespace NebulaX

/-- `MatchingEngine::checkpointIfNeeded`: whether a checkpoint is forked. -/
def MatchingEngine.checkpointIfNeeded (e : MatchingEngine) : Bool :=
  match e.wal with
  | none => false
  | some w => w.needCheckpoint

/-- What a tick works on: `engine_` and `summary_last_orders_`. -/
structure EventLoop where
  engine : MatchingEngine
  summaryLastOrders : UInt64 := 0

/-- What a tick writes to the log: a summary, and that a checkpoint is made. -/
structure TickLog where
  summary : Bool := false
  checkpoint : Bool := false
  deriving DecidableEq, Repr

/-- `TcpServer::logSummary`. -/
def EventLoop.logSummary (s : EventLoop) : EventLoop × TickLog :=
  match s.engine.metrics with
  | none => (s, {})
  | some m =>
      if m.newOrders < 1000 then (s, {})
      else if m.newOrders - s.summaryLastOrders < 1000 then (s, {})
      else
        ({ s with summaryLastOrders := m.newOrders },
          { summary := true, checkpoint := s.engine.checkpointIfNeeded })

end NebulaX
