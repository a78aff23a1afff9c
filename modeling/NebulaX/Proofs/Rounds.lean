import NebulaX.Proofs.Runs
import NebulaX.Spec.Replica

/-!
# `NebulaX.Proofs.Rounds`: the rounds of a call

A call that gets to the matching loop brings an order to a book: `meeting?`. `exec_cases` is the
call as seen from the loop. `rounds` are the rounds the loop makes, each with the state before it
and the slot it trades with. `rounds_eq` gives their trades in the exchange, and
`trades_of_exec` ties them to the call that was executed: its answer reports the trades of the
rounds, one by one.
-/

set_option autoImplicit false

namespace NebulaX

open NebulaX.Lib

variable {locate orderRef ref oldRef newRef userId : UInt64} {side : Side} {price quantity : UInt32}
variable {tif : OrderTif} {o : OrderInfo}

/-- Frames that are no trades report none. -/
theorem reportedTrades_append (out : List BinaryResponse) {tail : List BinaryResponse}
    (htail : ∀ t, .trade t ∉ tail) : reportedTrades (out ++ tail) = reportedTrades out := by
  have hnone : reportedTrades tail = [] := by
    refine List.filterMap_eq_nil_iff.mpr fun f hf => ?_
    cases f with
    | trade t => exact absurd hf (htail t)
    | _ => rfl
  rw [reportedTrades, List.filterMap_append, ← reportedTrades, ← reportedTrades, hnone,
    List.append_nil]

/-- The trades of the frames of a match. -/
theorem reportedTrades_frames (r : Fills) (locate : UInt64) (d : BookSide) :
    reportedTrades (r.frames locate d) = r.trades.map fun t =>
      { locate := locate, orderRef := t.1.orderId, side := d.side, price := t.1.price
        quantity := t.2 } := by
  rw [Fills.frames, reportedTrades, List.filterMap_map]
  exact congrFun List.filterMap_eq_map _

/-! ### What a call trades -/

namespace Exchange

/-- The trades of a call. -/
def callTrades (x : Exchange) (c : Call) : List (OrderInfo × UInt32) :=
  match x.facing? c with
  | some (y, o) => (y.fills c.locate o).trades
  | none => []

section
variable {keep : Bool} {x : Exchange} {c : Call} {r : Exchange × List BinaryResponse}

theorem callTrades_of_not_submitted (h : x.submitted? c = none) : x.callTrades c = [] := by
  rw [callTrades, Option.map_eq_none_iff.mp h]

theorem callTrades_add
    (h : x.submitted? (.add locate ref side price quantity userId tif) = some o) :
    x.callTrades (.add locate ref side price quantity userId tif) = (x.fills locate
      (incoming ref side (MatchingEngine.limitPrice tif side price) quantity userId)).trades := by
  obtain ⟨y, hy, -⟩ := Option.map_eq_some_iff.mp h
  obtain ⟨rfl, -⟩ := facing?_add hy
  rw [callTrades, hy]
  rfl

theorem callTrades_replace (ho : x.owned locate oldRef userId = some o) :
    x.callTrades (.replace locate oldRef newRef side price quantity userId)
      = ((x.remove locate o).fills locate (incoming newRef side price quantity newRef)).trades := by
  rw [callTrades, facing?, ho]
  rfl

theorem Submitted.reported (h : Submitted keep x locate o r) :
    (reportedTrades r.2).map (fun t => (t.orderRef, t.price, t.quantity))
      = (x.fills locate o).trades.map fun t => (t.1.orderId, t.1.price, t.2) := by
  obtain ⟨tail, hout, -, htail⟩ := h.out
  rw [hout, reportedTrades_append _ htail, tradeFrames, reportedTrades_frames, List.map_map]
  rfl

/-- The answer to a call reports its trades. -/
theorem Does.reported (h : Does keep x c r) :
    (reportedTrades r.2).map (fun t => (t.orderRef, t.price, t.quantity))
      = (x.callTrades c).map fun t => (t.1.orderId, t.1.price, t.2) := by
  cases h with
  | refused _ _ hsub _ => rw [callTrades_of_not_submitted hsub]; rfl
  | cancelled _ => rfl
  | usedUp _ _ => rfl
  | reduced _ _ => rfl
  | added _ hsub hr => rw [hr.reported, callTrades_add hsub]
  | replaced ho hr => rw [hr.reported, callTrades_replace ho]

end

end Exchange

namespace MatchingEngine

/-! ### The order a call brings to the loop -/

/-- The book and the order a call brings to the matching loop. -/
def meeting? (e : MatchingEngine) : Call → Option (OrderBook × Order)
  | .add locate orderRef side price quantity userId tif =>
      if Exchange.refusal locate orderRef side price quantity userId tif = none ∧ (tif = .fok →
          canFullFill (e.book locate) side (limitPrice tif side price) quantity = some true) then
        some (e.book locate,
          e.newOrder orderRef side (limitPrice tif side price) quantity userId)
      else none
  | .replace locate oldRef newRef side price quantity userId => do
      let idx ← e.namedSlot locate oldRef userId
      let b ← (e.book locate).removeOrder idx
      return (b, e.newOrder newRef side price quantity newRef)
  | _ => none

/-- The book that was stored. -/
theorem book_putBook (e : MatchingEngine) (locate : UInt64) (b : OrderBook) :
    (e.putBook locate b).book locate = b := by
  rw [book, levelsOf_putBook, Function.update_self]
  rfl

/-- The call `c` brings `order` to the matching loop, in the engine `e₁`. -/
structure Brings (e : MatchingEngine) (c : Call) (e₁ : MatchingEngine) (order : Order) :
    Prop where
  meeting : e.meeting? c = some (e₁.book c.locate, order)
  tape : e₁.tape = e.tape
  ref : c.newRef? = some order.orderId
  owner : c.taker? = some order.userId
  slots : e.Inv → e.abs.Routed c → e₁.Inv ∧ ∀ π, ∀ i ∈ e₁.slots π, i ∈ e.slots π

/-- A new order is brought to the book as it is. -/
theorem Brings.add {e e₁ : MatchingEngine} (ho : Opened e e₁)
    (hpass : e.Passes locate orderRef side price quantity userId tif) (entry : WalEntry) :
    Brings e (.add locate orderRef side price quantity userId tif) (e₁.bumpSequence.log entry)
      (e₁.newOrder orderRef side (limitPrice tif side price) quantity userId) where
  meeting := by
    have hbook : (e₁.bumpSequence.log entry).book locate = e.book locate := ho.toSame.book locate
    rw [Passes] at hpass
    rw [meeting?, if_pos hpass, Call.locate, hbook]
    simp only [newOrder, ho.nextSequence]
  tape := ho.tape
  ref := rfl
  owner := rfl
  slots hinv _ := by
    have hs : SameBooks e (e₁.bumpSequence.log entry) := ⟨ho.levelsOf, ho.pool, ho.index⟩
    refine ⟨hs.inv hinv, fun π i hi => ?_⟩
    rwa [hs.slots] at hi

/-- A replacement is brought to the book without the old order. -/
theorem Brings.replace {e e₁ : MatchingEngine} {idx : UInt32} {b : OrderBook} (hs : Same e e₁)
    (htape : e₁.tape = e.tape) (hl : ¬ kMaxLocate ≤ locate)
    (hfind : e.index.find oldRef = some (some idx)) (huser : (e.pool.storage idx).userId = userId)
    (hb : (e.book locate).removeOrder idx = some b) :
    Brings e (.replace locate oldRef newRef side price quantity userId)
      (e₁.putBook locate b).bumpSequence (e₁.newOrder newRef side price quantity newRef) where
  meeting := by
    have hbook : (e₁.putBook locate b).bumpSequence.book locate = b := book_putBook e₁ locate b
    simp only [meeting?, namedSlot, if_neg hl, hfind, if_pos huser, hb, Call.locate, hbook,
      Option.bind_eq_bind, Option.bind_some, pure, newOrder, hs.nextSequence]
  tape := htape
  ref := rfl
  owner := rfl
  slots hinv hrouted := by
    -- The index leads to an order of this book, so its removal is the one of `Inv.removeOrder`.
    rcases owned_eq hinv hrouted with ⟨-, j, d, hj, -, hmem, -⟩ | ⟨-, hmiss⟩
    · obtain rfl : j = idx := by simpa using hj.symm.trans hfind
      obtain ⟨b', hb', hinv', -, hshrinks, -⟩ := hinv.removeOrder hmem
      obtain rfl : b' = b := Option.some.inj (hb'.symm.trans hb)
      have hbooks : SameBooks (e.putBook locate b') (e₁.putBook locate b').bumpSequence := by
        refine ⟨?_, rfl, rfl⟩
        show (e₁.putBook locate b').levelsOf = _
        rw [levelsOf_putBook, levelsOf_putBook, hs.levelsOf]
      refine ⟨hbooks.inv hinv', fun π i hi => ?_⟩
      rw [hbooks.slots] at hi
      exact (hshrinks.sublist π).subset hi
    · exact absurd huser ((hmiss.resolve_left hl).ne.2 idx hfind)

section
variable {e e' : MatchingEngine} {c : Call} {out : List BinaryResponse}

theorem After.trades {trades : List BinaryResponse} (h : After e locate trades (e', out)) :
    reportedTrades out = reportedTrades trades := by
  obtain ⟨tail, heq, htail, -⟩ := h.out
  rw [show out = _ from heq, reportedTrades_append _ htail]

/-- A call, seen from the matching loop: it does not get there, or it is the match of what it
brings. -/
theorem exec_cases (h : e.exec c = some (e', out)) :
    (e.meeting? c = none ∧ e'.tape = e.tape ∧ reportedTrades out = []) ∨
      ∃ e₁ order e₂ left out₁, Brings e c e₁ order ∧
        e₁.matchSide c.locate order = some (e₂, left, out₁) ∧
        e'.tape = e₂.tape ∧ reportedTrades out = reportedTrades out₁ := by
  cases hn : c.named? with
  | none =>
      cases c with
      | add locate orderRef side price quantity userId tif =>
          rcases processAdd_cases h with ⟨hpass, e₁, code, ho, hr⟩ | ⟨hpass, e₁, ho, h⟩
          · cases hr
            rw [Passes] at hpass
            exact Or.inl ⟨by rw [meeting?, if_neg hpass], ho.tape, rfl⟩
          · obtain ⟨⟨e₂, left, out₁⟩, hsub, hfin⟩ := Option.bind_eq_some_iff.mp h
            have ha := finishAdd_after hfin
            exact Or.inr ⟨_, _, e₂, left, out₁, .add ho hpass _, hsub, ha.tape, ha.trades⟩
      | _ => cases hn
  | some named =>
      obtain ⟨ref, userId⟩ := named
      cases exec_named (e := e) hn with
      | missing e₁ hs hmiss hr =>
          cases h.symm.trans hr
          refine Or.inl ⟨?_, hs.tape, rfl⟩
          cases c with
          | add => cases hn
          | replace =>
              cases hn
              simp only [Call.locate] at hmiss
              rw [meeting?, namedSlot_of_misses hmiss]
              rfl
          | _ => rfl
      | found e₁ idx hs hl hfind huser hr =>
          rcases actOn_cases (hr.symm.trans h) with
            ⟨hdraws, ha⟩ | ⟨locate, _, _, _, _, _, _, b, e₂, left, out₁, rfl, hb, hm, ha⟩
          · refine Or.inl ⟨?_, ha.tape.trans hs.tape, ha.trades⟩
            cases c with
            | cancel => rfl
            | cancelShares => rfl
            | _ => cases hdraws
          · cases hn
            rw [hs.toSame.book locate] at hb
            exact Or.inr ⟨_, _, e₂, left, out₁, .replace hs.toSame hs.tape hl hfind huser hb, hm,
              ha.tape, ha.trades⟩
      | stuck _ _ hr => cases h.symm.trans hr

/-! ### The rounds -/

/-- The rounds of the matching loop while a call is executed. -/
def rounds (e : MatchingEngine) (c : Call) : List (MatchState × UInt32) :=
  match e.meeting? c with
  | none => []
  | some (b, order) =>
      loopRounds order.side.bookSide.opposite c.locate e.nextSequence (b.pool.capacity + 1)
        { book := b, order := order, out := [], metrics := e.metrics, tradePool := e.tradePool
          tradeId := e.tradeId order.side.bookSide.opposite }

/-- The rounds of a call trade what the exchange trades. -/
theorem rounds_eq (hinv : e.Inv) (hr : e.abs.Routed c) :
    (e.rounds c).map roundTrade = e.abs.callTrades c := by
  -- The loop, in an engine with this book and these slots.
  have hloop : ∀ (e₁ : MatchingEngine) (order : Order), e₁.Inv →
      (loopRounds order.side.bookSide.opposite c.locate e.nextSequence (e₁.pool.capacity + 1)
        { book := e₁.book c.locate, order := order, out := [], metrics := e.metrics
          tradePool := e.tradePool, tradeId := e.tradeId order.side.bookSide.opposite }).map
        roundTrade = (e₁.abs.fills c.locate order.toOrderInfo).trades := by
    intro e₁ order hinv₁
    obtain ⟨-, -, -, hrounds⟩ := matchLoop_spec (d := order.side.bookSide.opposite) e.nextSequence
      { book := e₁.book c.locate, order := order, out := [], metrics := e.metrics
        tradePool := e.tradePool, tradeId := e.tradeId order.side.bookSide.opposite }
      (e₁.pool.capacity + 1) hinv₁ rfl (Nat.lt_succ_of_le (hinv₁.toBooksRep.length_le _))
    exact hrounds
  cases c with
  | cancel => rfl
  | cancelShares => rfl
  | add locate ref side price quantity userId tif =>
      have hcan := canFullFill_eq hinv locate side (limitPrice tif side price) quantity
      simp only [MatchingEngine.rounds, meeting?, Exchange.callTrades, Exchange.facing?, hcan,
        Option.some.injEq, decide_eq_true_eq]
      split_ifs
      · exact hloop e _ hinv
      · rfl
  | replace locate oldRef newRef side price quantity userId =>
      simp only [MatchingEngine.rounds, meeting?, Exchange.callTrades, Exchange.facing?]
      rcases owned_eq hinv hr with ⟨hl, i, d, hfind, huser, hi, howned⟩ | ⟨howned, hmiss⟩
      · obtain ⟨b, hrem, hinv', habs, -⟩ := hinv.removeOrder hi
        have hrounds := hloop (e.putBook locate b) (e.newOrder newRef side price quantity newRef)
          hinv'
        simp only [Call.locate, book_putBook, habs] at hrounds
        simp only [namedSlot, if_neg hl, hfind, if_pos huser, hrem, howned, Option.map_some,
          Option.bind_eq_bind, Option.bind_some, pure]
        exact hrounds
      · rw [namedSlot_of_misses hmiss, howned]
        rfl

/-- The trades a call reports are the trades of its rounds. -/
theorem trades_of_exec (hinv : e.Inv) (hp : Admissible [] e c) (h : e.exec c = some (e', out)) :
    (reportedTrades out).map (fun t => (t.orderRef, t.price, t.quantity))
      = ((e.rounds c).map roundTrade).map fun t => (t.1.orderId, t.1.price, t.2) := by
  have hdoes : Exchange.Does (!e.drops c) e.abs c (e'.abs, out) :=
    (stepsTo_of_exec hinv hp h).abs ▸ Exchange.step_does _ _ c
  rw [rounds_eq hinv hp.2]
  exact hdoes.reported

end

end MatchingEngine

end NebulaX
