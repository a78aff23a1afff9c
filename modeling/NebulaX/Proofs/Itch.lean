import NebulaX.Proofs.Runs
import NebulaX.Server.TcpServer

/-!
# `NebulaX.Proofs.Itch`: messages are calls

A message leads to at most one call of the engine, `TcpServer.callOf`. All other messages
change counters and empty books only. So what holds of admissible calls holds of messages
whose calls are admissible.
-/

set_option autoImplicit false

namespace NebulaX

open NebulaX.Lib

namespace TcpServer

/-- The engine call of an event. The call of a replace needs the order it names. -/
def callOfEvent (e : MatchingEngine) : ItchEvent → Option Call
  | .add locate ref side shares price => some (.add locate.toUInt64 ref side price shares ref .day)
  | .delete locate ref => some (.cancel locate.toUInt64 ref ref)
  | .cancel locate ref shares => some (.cancelShares locate.toUInt64 ref shares ref)
  | .replace locate ref newRef shares price =>
      match e.index.find ref with
      | some (some old) =>
          some (.replace locate.toUInt64 ref newRef (e.pool.storage old).side price shares ref)
      | _ => none
  | .book _ => none

/-- The engine call of a message. -/
def callOf (s : TcpServer) (msg : List UInt8) : Option Call :=
  (s.itchParser.feed msg).2.bind (callOfEvent s.engine)

/-- A new order of a message is a buy or a sell. -/
theorem side_of_feed {p : ItchParser} {msg : List UInt8} {locate : UInt16} {ref : UInt64}
    {side : Side} {shares price : UInt32}
    (h : (p.feed msg).2 = some (.add locate ref side shares price)) :
    side = .buy ∨ side = .sell := by
  simp only [ItchParser.feed, apply_ite Prod.snd] at h
  split_ifs at h <;> simp only [Option.some.injEq, ItchEvent.add.injEq, reduceCtorEq] at h
  · exact Or.inr h.2.2.1.symm
  · exact Or.inl h.2.2.1.symm

/-- The locate of an event is in range. -/
theorem not_kMaxLocate_le (l : UInt16) : ¬ MatchingEngine.kMaxLocate ≤ l.toUInt64 := by
  rw [UInt64.not_le, UInt64.lt_iff_toNat_lt, UInt16.toNat_toUInt64]
  exact l.toNat_lt

/-- What the server does with an event: it counts and answers with one frame, or it makes one
engine call. -/
theorem dispatch_spec {e : MatchingEngine} (h : e.Inv) (ev : ItchEvent) :
    (callOfEvent e ev = none ∧ ∃ e' f, dispatch e ev = some (e', [f]) ∧
        MatchingEngine.Same e e' ∧ e'.wal = e.wal ∧ ∀ t, f ≠ BinaryResponse.trade t) ∨
      ∃ c e₁, callOfEvent e ev = some c ∧ MatchingEngine.Same e e₁ ∧ e₁.wal = e.wal ∧
        dispatch e ev = e₁.exec c := by
  cases ev with
  | add locate ref side shares price | delete locate ref | cancel locate ref shares =>
      exact Or.inr ⟨_, e, rfl, .refl e, rfl, rfl⟩
  | book locate => exact Or.inl ⟨rfl, _, _, rfl, .count e _, rfl, by simp⟩
  | replace locate ref newRef shares price =>
      rcases MatchingEngine.bookFor_spec e locate.toUInt64 with ⟨hl, -⟩ | ⟨-, e₁, hopen, hs⟩
      · exact absurd hl (not_kMaxLocate_le locate)
      · have hfind := OrderMap.find_eq_lookup h.wf ref
        have hwal := (MatchingEngine.bookFor_keeps hopen).1
        simp only [callOfEvent, dispatch, hopen, OrderBook.findOrder, MatchingEngine.book,
          hs.index, hs.pool, hfind, Option.bind_eq_bind, Option.bind_some]
        cases e.index.lookup ref with
        | none => exact Or.inl ⟨rfl, e₁, _, rfl, hs, hwal, by simp⟩
        | some old => exact Or.inr ⟨_, e₁, rfl, hs, hwal, rfl⟩

/-- The answer to a message that leads to no call: one frame that is no trade if the message is
an event, and nothing otherwise. -/
def QuietAnswer (s : TcpServer) (msg : List UInt8) (out : List BinaryResponse) : Prop :=
  ∃ f, (∀ t, f ≠ BinaryResponse.trade t) ∧
    out = if (s.itchParser.feed msg).2.isSome then [f] else []

theorem QuietAnswer.no_trade {s : TcpServer} {msg : List UInt8} {out : List BinaryResponse}
    (h : s.QuietAnswer msg out) (t : Trade) : .trade t ∉ out := by
  obtain ⟨f, hf, rfl⟩ := h
  split
  · exact fun ht => hf t (List.mem_singleton.mp ht).symm
  · exact List.not_mem_nil

/-- What the server does with a message. -/
theorem processItchMessage_spec {s : TcpServer} (h : s.engine.Inv) (msg : List UInt8) :
    (s.callOf msg = none ∧ ∃ s' out, s.processItchMessage msg = some (s', out) ∧
        MatchingEngine.Same s.engine s'.engine ∧ s'.engine.wal = s.engine.wal ∧
        s.QuietAnswer msg out) ∨
      ∃ c e₁ p, s.callOf msg = some c ∧ MatchingEngine.Same s.engine e₁ ∧
        e₁.wal = s.engine.wal ∧
        s.processItchMessage msg = (e₁.exec c).map fun r => (⟨r.1, p⟩, r.2) := by
  unfold callOf processItchMessage QuietAnswer
  rcases hfeed : s.itchParser.feed msg with ⟨p, _ | ev⟩
  · exact Or.inl ⟨rfl, _, _, rfl, .refl _, rfl, .error .orderNotFound, by simp, rfl⟩
  · simp only [Option.bind_some]
    rcases dispatch_spec h ev with
      ⟨hnone, e', f, heq, hs, hwal, hquiet⟩ | ⟨c, e₁, hcall, hs, hwal, heq⟩
    · exact Or.inl ⟨hnone, ⟨e', p⟩, [f], by rw [heq]; rfl, hs, hwal, f, hquiet, rfl⟩
    · refine Or.inr ⟨c, e₁, p, hcall, hs, hwal, ?_⟩
      rw [heq]
      exact Option.map_eq_bind.symm

/-- The call of a message, if it leads to one, is admissible. -/
def Admits (s : TcpServer) (msg : List UInt8) : Prop :=
  ∀ c, s.callOf msg = some c → MatchingEngine.Admissible [] s.engine c

/-- A message whose call is admissible: the server answers, and the engine makes the step of
the call or none. -/
theorem step_of_admits {s : TcpServer} (h : s.engine.Inv) {msg : List UInt8} (hp : s.Admits msg) :
    ∃ s' out, s.processItchMessage msg = some (s', out) ∧ s'.engine.Inv ∧
      ((s'.engine.abs = s.engine.abs ∧ s.callOf msg = none ∧ s.QuietAnswer msg out) ∨
        ∃ c keep, s.callOf msg = some c ∧
          (s'.engine.abs, out) = s.engine.abs.step keep c) := by
  rcases processItchMessage_spec h msg with
    ⟨hnone, s', out, heq, hs, -, hquiet⟩ | ⟨c, e₁, p, hcall, hs, -, heq⟩
  · exact ⟨s', out, heq, hs.inv h, Or.inl ⟨hs.abs, hnone, hquiet⟩⟩
  · have hc := hp c hcall
    rw [MatchingEngine.Admissible, ← hs.abs] at hc
    obtain ⟨⟨e', out⟩, hr, hstep⟩ := MatchingEngine.exec_spec (hs.inv h) hc.1 hc.2
    refine ⟨⟨e', p⟩, out, by rw [heq, hr]; rfl, hstep.inv, Or.inr ⟨c, !e₁.drops c, hcall, ?_⟩⟩
    rw [← hs.abs]
    exact hstep.abs

/-- A message that is an event. -/
theorem processItchMessage_of_feed {s : TcpServer} {msg : List UInt8} (ev : ItchEvent)
    (h : s.itchParser.feed msg = (s.itchParser, some ev)) :
    s.processItchMessage msg = (dispatch s.engine ev).map fun r => (⟨r.1, s.itchParser⟩, r.2) := by
  simp only [processItchMessage, h]
  exact Option.map_eq_bind.symm

/-- A run of messages that are events. -/
theorem run_of_feed {msgs : List (List UInt8)} {evs : List ItchEvent}
    (h : List.Forall₂ (fun msg ev => ∀ p, ItchParser.feed p msg = (p, some ev)) msgs evs)
    (e : MatchingEngine) (p : ItchParser) :
    run processItchMessage ⟨e, p⟩ msgs = (run dispatch e evs).map fun r => (⟨r.1, p⟩, r.2) := by
  induction h generalizing e with
  | nil => rfl
  | cons hev _ ih =>
      simp only [run, processItchMessage_of_feed (s := ⟨e, p⟩) _ (hev p), Option.bind_eq_bind,
        Option.bind_map, Option.map_bind]
      congr 1
      funext r
      simp only [Function.comp_apply, ih, Option.bind_map, Option.map_bind]
      rfl

/-! ### Messages in bytes -/

/-- `v` in `n` bytes, big endian. -/
def bigEndian (n v : Nat) : List UInt8 :=
  (List.range n).map fun i => UInt8.ofNat (v >>> (8 * (n - 1 - i)))

/-- An add message on locate 0; `side` is the letter. -/
def addMessage (ref : Nat) (side : UInt8) (shares price : Nat) : List UInt8 :=
  65 :: bigEndian 10 0 ++ bigEndian 8 ref ++ [side] ++ bigEndian 4 shares ++ bigEndian 8 0
    ++ bigEndian 4 price

/-- A delete message on locate 0. -/
def deleteMessage (ref : Nat) : List UInt8 := 68 :: bigEndian 10 0 ++ bigEndian 8 ref

/-- A replace message on locate 0. -/
def replaceMessage (ref newRef shares price : Nat) : List UInt8 :=
  85 :: bigEndian 10 0 ++ bigEndian 8 ref ++ bigEndian 8 newRef ++ bigEndian 4 shares
    ++ bigEndian 4 price

end TcpServer

end NebulaX
