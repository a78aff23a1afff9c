import NebulaX.Proofs.NonInterference
import NebulaX.Proofs.Snapshot
import NebulaX.Proofs.WalTwice

/-!
# `NebulaX.Proofs.Restart`: a restart does not show

An engine that has read the log is a twin of the one that wrote it: it differs in the numbers of its
orders, in counters and in logs. Nothing a caller can do tells twins apart, whatever the call and
whatever state the engine is in (`Twin.exec`), so the clients of a restarted engine see what they
would have seen without the restart.

A snapshot brings back the orders and not their slots. Two exchanges with the same queues, the same
number of free slots and complete indices are `Alike`, and they stay so under equal calls as long as
no index drops a reference.
-/

set_option autoImplicit false

namespace NebulaX

open NebulaX.Lib

/-! ### Twins cannot be told apart -/

/-- The number is not part of what an order is. -/
theorem Order.info_of_unstamped {o o' : Order} (h : o'.unstamped = o.unstamped) :
    o'.toOrderInfo = o.toOrderInfo := by
  show o'.unstamped.toOrderInfo = o.unstamped.toOrderInfo
  rw [h]

namespace OrderBook

theorem sumLevel_unstamped (storage : UInt32 → Order) (fuel : Nat) (idx total : UInt32) :
    sumLevel (fun i => (storage i).unstamped) fuel idx total = sumLevel storage fuel idx total := by
  induction fuel generalizing idx total with
  | zero => rfl
  | succ fuel ih =>
      simp only [sumLevel, show (storage idx).unstamped.nextIdx = (storage idx).nextIdx from rfl,
        show (storage idx).unstamped.remainingQty = (storage idx).remainingQty from rfl, ih]

theorem sumLevels_unstamped (pool : OrderPool) (d : BookSide) (price : UInt32)
    (entries : List (UInt32 × PriceLevel)) (total : UInt32) :
    sumLevels pool.unstamped d price entries total = sumLevels pool d price entries total := by
  induction entries generalizing total with
  | nil => rfl
  | cons entry entries ih =>
      have hlevel := sumLevel_unstamped pool.storage (pool.capacity + 1) entry.2.headIdx total
      simp only [sumLevels, ih]
      rw [← hlevel]
      rfl

theorem availableQty_unstamped (b : OrderBook) (side : Side) (price : UInt32) :
    b.unstamped.availableQty side price = b.availableQty side price := by
  unfold availableQty
  simp only [show b.unstamped.pool = b.pool.unstamped from rfl, sumLevels_unstamped]
  rfl

end OrderBook

namespace MatchingEngine

variable {e d e' : MatchingEngine} {c : Call} {out : List BinaryResponse}

namespace Twin

variable {locate : UInt64} {order order' : Order} {quantity : UInt32} {tif : OrderTif}
variable {trades : List BinaryResponse}

theorem symm (h : Twin e d) : Twin d e := ⟨h.levelsOf.symm, h.pool.symm, h.index.symm⟩

/-- Drawing a number does not show. -/
theorem bumpSequence (h : Twin e d) : Twin e.bumpSequence d.bumpSequence :=
  ⟨h.levelsOf, h.pool, h.index⟩

theorem canFullFill (h : Twin e d) (locate : UInt64) (side : Side) (price quantity : UInt32) :
    MatchingEngine.canFullFill (d.book locate) side price quantity
      = MatchingEngine.canFullFill (e.book locate) side price quantity := by
  unfold MatchingEngine.canFullFill
  rw [← OrderBook.availableQty_unstamped, h.book, OrderBook.availableQty_unstamped]

/-- Twins rest the same order with the same answer. -/
theorem restOrder (h : Twin e d) (ho : order'.unstamped = order.unstamped)
    (hrest : e.restOrder locate order trades = some (e', out)) :
    ∃ d', d.restOrder locate order' trades = some (d', out) ∧ Twin e' d' := by
  have hinfo := Order.info_of_unstamped ho
  simp only [MatchingEngine.restOrder, Option.bind_eq_bind, Option.bind_eq_some_iff] at hrest
  obtain ⟨⟨added, b⟩, hadd, hrest⟩ := hrest
  obtain ⟨b', hadd', ht⟩ := h.addOrder ho hadd
  simp only [MatchingEngine.restOrder, hadd', Option.bind_eq_bind, Option.bind_some, hinfo]
  cases added with
  | true =>
      cases hrest
      exact ⟨_, rfl, ht.trans_same (Same.count _ _) (Same.count _ _)⟩
  | false =>
      cases hrest
      exact ⟨_, rfl, ht.trans_same ((Same.count _ _).trans (Same.count _ _))
        ((Same.count _ _).trans (Same.count _ _))⟩

/-- What is done with the order the matching loop left. -/
theorem finishAdd (h : Twin e d) (ho : order'.unstamped = order.unstamped)
    (hfin : e.finishAdd locate order quantity tif trades = some (e', out)) :
    ∃ d', d.finishAdd locate order' quantity tif trades = some (d', out) ∧ Twin e' d' := by
  have hinfo := Order.info_of_unstamped ho
  have hcount : ∀ f, Twin (e.count f) (d.count f) :=
    fun f => h.trans_same (Same.count _ _) (Same.count _ _)
  unfold MatchingEngine.finishAdd at hfin ⊢
  simp only [hinfo]
  -- every branch but the one that rests the order ends where it starts, up to a counter
  have hsame : ∀ {e₁ d₁ : MatchingEngine} {r : List BinaryResponse}, Twin e₁ d₁ →
      some (e₁, r) = some (e', out) → ∃ d', some (d₁, r) = some (d', out) ∧ Twin e' d' := by
    intro e₁ d₁ r ht heq
    cases heq
    exact ⟨d₁, rfl, ht⟩
  split_ifs at hfin ⊢
  · exact hsame (h.trans_same (Same.count _ _) (Same.count _ _)) hfin
  · exact hsame (hcount _) hfin
  · exact hsame h hfin
  · exact hsame (hcount _) hfin
  · exact hsame h hfin
  · exact h.restOrder ho hfin
  · exact hsame h hfin

/-- The same for `processReplace`. -/
theorem finishReplace (h : Twin e d) (ho : order'.unstamped = order.unstamped)
    (hfin : e.finishReplace locate order trades = some (e', out)) :
    ∃ d', d.finishReplace locate order' trades = some (d', out) ∧ Twin e' d' := by
  have hinfo := Order.info_of_unstamped ho
  unfold MatchingEngine.finishReplace at hfin ⊢
  simp only [hinfo]
  split_ifs at hfin ⊢
  · exact h.restOrder ho hfin
  · cases hfin
    exact ⟨_, rfl, h⟩
  · cases hfin
    exact ⟨_, rfl, h⟩

/-- A new order that passed the checks. -/
theorem addChecked (h : Twin e d) {orderRef : UInt64} {side : Side} {price : UInt32}
    {userId : UInt64}
    (hadd : e.addChecked locate orderRef side price quantity userId tif = some (e', out)) :
    ∃ d', d.addChecked locate orderRef side price quantity userId tif = some (d', out) ∧
      Twin e' d' := by
  obtain ⟨e₁, hsub, hs⟩ := submitAdd_prepared e locate orderRef side price quantity userId tif
  obtain ⟨d₁, hsub', hs'⟩ := submitAdd_prepared d locate orderRef side price quantity userId tif
  simp only [MatchingEngine.addChecked, hsub, Option.bind_eq_bind, Option.bind_eq_some_iff] at hadd
  obtain ⟨⟨e₂, left, trades⟩, hm, hfin⟩ := hadd
  have hnew : (d.newOrder orderRef side (limitPrice tif side price) quantity userId).unstamped
      = (e.newOrder orderRef side (limitPrice tif side price) quantity userId).unstamped := rfl
  obtain ⟨d₂, left', hm', ht, hleft⟩ := (h.bumpSequence.trans_same hs hs').matchSide hnew hm
  obtain ⟨d', hfin', ht'⟩ := ht.finishAdd hleft hfin
  refine ⟨d', ?_, ht'⟩
  rw [MatchingEngine.addChecked, hsub', hm']
  exact hfin'

/-- A new order. -/
theorem processAdd (h : Twin e d) {orderRef : UInt64} {side : Side} {price : UInt32}
    {userId : UInt64}
    (hadd : e.processAdd locate orderRef side price quantity userId tif = some (e', out)) :
    ∃ d', d.processAdd locate orderRef side price quantity userId tif = some (d', out) ∧
      Twin e' d' := by
  rcases processAdd_eq e locate orderRef side price quantity userId tif with
    ⟨code, e₁, href, heq, ⟨hs, -, -⟩⟩ | ⟨href, e₁, -, ⟨hs, -, -⟩, -, heq⟩
  · rcases processAdd_eq d locate orderRef side price quantity userId tif with
      ⟨code', d₁, href', heq', ⟨hs', -, -⟩⟩ | ⟨href', -⟩
    · rw [heq] at hadd
      cases hadd
      obtain rfl : code = code' := Option.some.inj (href.symm.trans href')
      exact ⟨d₁, heq', h.trans_same hs hs'⟩
    · rw [href] at href'
      cases href'
  · rcases processAdd_eq d locate orderRef side price quantity userId tif with
      ⟨code', d₁, href', -⟩ | ⟨-, d₁, -, ⟨hs', -, -⟩, -, heq'⟩
    · rw [href] at href'
      cases href'
    · have ht := h.trans_same hs hs'
      rw [heq] at hadd
      rw [heq', ht.canFullFill]
      split_ifs at hadd ⊢
      · cases hfull : MatchingEngine.canFullFill (e₁.book locate) side (limitPrice tif side price)
          quantity with
        | none =>
            rw [hfull] at hadd
            cases hadd
        | some full =>
            rw [hfull] at hadd
            cases full with
            | true => exact ht.addChecked hadd
            | false =>
                cases hadd
                exact ⟨_, rfl, ht.trans_same (Same.count _ _) (Same.count _ _)⟩
      · exact ht.addChecked hadd

/-- A call that acts on the order it names. -/
theorem actOn (h : Twin e d) {idx : UInt32} (hact : e.actOn idx c = some (e', out)) :
    ∃ d', d.actOn idx c = some (d', out) ∧ Twin e' d' := by
  have hremove : ∀ {locate ref : UInt64}, ((e.book locate).removeOrder idx).bind (fun b =>
        some (e.putBook locate b, [BinaryResponse.cancelled ref])) = some (e', out) →
      ∃ d', ((d.book locate).removeOrder idx).bind (fun b =>
        some (d.putBook locate b, [BinaryResponse.cancelled ref])) = some (d', out) ∧
          Twin e' d' := by
    intro locate ref hrem
    obtain ⟨b, hb, heq⟩ := Option.bind_eq_some_iff.mp hrem
    cases heq
    obtain ⟨b', hb', ht⟩ := h.removeOrder hb
    rw [hb']
    exact ⟨_, rfl, ht⟩
  cases c with
  | add => cases hact
  | cancel locate ref userId => exact hremove hact
  | cancelShares locate ref shares userId =>
      have hqty : (d.pool.storage idx).remainingQty = (e.pool.storage idx).remainingQty :=
        congrArg OrderInfo.remainingQty (h.info idx)
      simp only [MatchingEngine.actOn, hqty] at hact ⊢
      split_ifs at hact ⊢
      · exact hremove hact
      · cases hact
        exact ⟨_, rfl, h.reduceQtyCancel locate idx shares⟩
  | replace locate oldRef newRef side price quantity userId =>
      simp only [MatchingEngine.actOn, submitReplace, Option.bind_eq_bind,
        Option.bind_eq_some_iff] at hact
      obtain ⟨⟨e₂, left, trades⟩, ⟨b, hb, hm⟩, hfin⟩ := hact
      obtain ⟨b', hb', ht⟩ := h.removeOrder hb
      have hnew : ((d.putBook locate b').newOrder newRef side price quantity newRef).unstamped
          = ((e.putBook locate b).newOrder newRef side price quantity newRef).unstamped := rfl
      obtain ⟨d₂, left', hm', ht₂, hleft⟩ := ht.bumpSequence.matchSide hnew hm
      obtain ⟨d', hfin', ht'⟩ := ht₂.finishReplace hleft hfin
      refine ⟨d', ?_, ht'⟩
      simp only [MatchingEngine.actOn, submitReplace, hb', hm', Option.bind_eq_bind,
        Option.bind_some]
      exact hfin'

end Twin

/-- Twins answer every call alike, in whatever state they are, and stay twins. -/
theorem Twin.exec (h : Twin e d) (hexec : e.exec c = some (e', out)) :
    ∃ d', d.exec c = some (d', out) ∧ Twin e' d' := by
  cases hn : c.named? with
  | none =>
      cases c with
      | add locate orderRef side price quantity userId tif => exact h.processAdd hexec
      | _ => cases hn
  | some named =>
      cases exec_named (e := e) hn with
      | missing e₁ hs hmiss hr =>
          obtain ⟨d₁, heq', hs'⟩ := exec_missing hn (hmiss.imp_right h.misses)
          cases hexec.symm.trans hr
          exact ⟨d₁, heq', h.trans_same (hs.toSame.trans (Same.count e₁ _)) hs'⟩
      | found e₁ idx hs hl hfind huser hr =>
          obtain ⟨hfind', huser', -⟩ := h.found hfind
          obtain ⟨d₂, hs', heq'⟩ := exec_found hn hl hfind' (huser'.trans huser)
          rw [heq']
          exact (h.trans_same hs.toSame hs').actOn (hr.symm.trans hexec)
      | stuck _ _ hr => cases hexec.symm.trans hr

/-- Twins answer a run of calls alike. -/
theorem Twin.run (h : Twin e d) {calls : List Call} {outs : List (List BinaryResponse)}
    (hrun : Lib.run MatchingEngine.exec e calls = some (e', outs)) :
    ∃ d', Lib.run MatchingEngine.exec d calls = some (d', outs) ∧ Twin e' d' := by
  induction calls generalizing e d outs with
  | nil =>
      cases hrun
      exact ⟨d, rfl, h⟩
  | cons c calls ih =>
      rw [run_cons, Option.bind_eq_some_iff] at hrun
      obtain ⟨⟨e₁, out⟩, hexec, hrun⟩ := hrun
      rw [runNext_mk, Option.map_eq_some_iff] at hrun
      obtain ⟨⟨e₂, outs₂⟩, hrun, heq⟩ := hrun
      cases heq
      obtain ⟨d₁, hexec', h₁⟩ := h.exec hexec
      obtain ⟨d', hrun', h'⟩ := ih h₁ hrun
      refine ⟨d', ?_, h'⟩
      rw [run_cons, hexec', Option.bind_some, runNext_mk, hrun']
      rfl

/-- Twins report the same top of every book. -/
theorem Twin.getBook (h : Twin e d) (locate : UInt64) :
    (d.getBook locate).2 = (e.getBook locate).2 := by
  -- a book that was not built reports as an empty one does
  have hreport : ∀ e : MatchingEngine, (e.getBook locate).2 =
      { locate := locate
        toTopOfBook := if kMaxLocate ≤ locate then {}
          else OrderBook.getTopOfBook (e.levelsOf locate) } := by
    intro e
    simp only [MatchingEngine.getBook, MatchingEngine.levelsOf]
    cases e.books locate <;> rfl
  rw [hreport, hreport, h.levelsOf]

/-! ### A restart from the log -/

/-- **A restart from the log does not show.** An engine ran on a fresh log file, its calls kept what
callers promise and each one was such that its entry says all it does. Another engine reads the
file. From then on it answers every sequence of calls as the first one would have, fails to return
where that one would, holds the same books after them and reports the same tops. -/
theorem wal_restart_invisible {c : Nat} {metrics metrics' : Option IOCounters}
    {wal' : Option WalWriter} {tradePool tradePool' : Option TradePool} {e₀ d₀ : MatchingEngine}
    {h : List (Call × List BinaryResponse)} {log : List WalEntry} {n : Nat}
    (h₀ : ofCapacity c metrics (some .fresh) tradePool = some e₀)
    (hd₀ : ofCapacity c metrics' wal' tradePool' = some d₀)
    (t : Trace execLogged (fun _ s c => Admissible [] s.1 c ∧ s.1.Replayable c) (e₀, []) h
      (e, log)) (hfull : log.length ≤ walEntries) (hn : log.length ≤ n) :
    ∃ w d, e.wal = some w ∧ d₀.recoverFromWal (some ⟨w.base, n⟩) = some d ∧ ∀ calls,
      (run exec d calls).map Prod.snd = (run exec e calls).map Prod.snd ∧
        ∀ e' outs, run exec e calls = some (e', outs) → ∃ d', run exec d calls = some (d', outs) ∧
          ∀ locate, SameBook locate d' e' ∧ (d'.getBook locate).2 = (e'.getBook locate).2 := by
  obtain ⟨d₁, hm⟩ := mirrors_of_trace (fun _ _ _ _ hp => hp) h₀ hd₀ t
  obtain ⟨w, hw, hwrites⟩ := writes_of_trace h₀ t hfull
  obtain ⟨d, hd, ht, -⟩ := hm.recover hwrites hfull hn
  refine ⟨w, d, hw, hd, fun calls => ⟨?_, fun e' outs hrun => ?_⟩⟩
  · cases he : run exec e calls with
    | some r =>
        obtain ⟨d', hd', -⟩ := ht.run he
        rw [hd']
        rfl
    | none =>
        -- what the recovered engine returned, the first one would have
        cases hrun : run exec d calls with
        | none => rfl
        | some r =>
            obtain ⟨e', he', -⟩ := ht.symm.run hrun
            rw [he] at he'
            cases he'
  · obtain ⟨d', hd', ht'⟩ := ht.run hrun
    exact ⟨d', hd', fun locate => ⟨ht'.sameBook locate, ht'.getBook locate⟩⟩

/-- A bid rests, the engine goes down, and a sell order meets the bid in the engine that read the
log. -/
theorem wal_restart_invisible_bid : ∃ e₀ e log w d,
    ofCapacity 4 none (some .fresh) none = some e₀ ∧
    (run execLogged (e₀, []) [.add 0 1 .buy 100 5 1 .day]).map Prod.fst = some (e, log) ∧
    e.wal = some w ∧ e₀.recoverFromWal (some ⟨w.base, 10⟩) = some d ∧
    (run exec d [.add 0 2 .sell 100 3 2 .day]).map Prod.snd
      = some [[.trade ⟨0, 1, .buy, 100, 3⟩, .filled 2]] := by
  have hrun : ((ofCapacity 4 none (some .fresh) none).bind fun e₀ =>
      (execLogged (e₀, []) (.add 0 1 .buy 100 5 1 .day)).bind fun r =>
      (run exec r.1.1 [.add 0 2 .sell 100 3 2 .day]).map fun r' => (r.1.2.length, r'.2))
      = some (1, [[.trade ⟨0, 1, .buy, 100, 3⟩, .filled 2]]) := by
    decide +kernel
  simp only [Option.bind_eq_some_iff, Option.map_eq_some_iff, Prod.mk.injEq] at hrun
  obtain ⟨e₀, h₀, ⟨⟨e, log⟩, out⟩, hs, ⟨e', outs⟩, hafter, hlen, rfl⟩ := hrun
  have t : Trace execLogged (fun _ s c => Admissible [] s.1 c ∧ s.1.Replayable c) (e₀, [])
      [(.add 0 1 .buy 100 5 1 .day, out)] (e, log) :=
    Trace.nil.snoc ⟨admissible_start h₀ _, trivial, fun htif => absurd rfl htif⟩ hs
  change log.length = 1 at hlen
  obtain ⟨w, d, hw, hd, hall⟩ := wal_restart_invisible (n := 10) h₀ h₀ t
    (by rw [hlen]; decide) (by rw [hlen]; decide)
  refine ⟨e₀, e, log, w, d, h₀, congrArg (Option.map Prod.fst) t.run_eq, hw, hd, ?_⟩
  rw [(hall _).1, hafter]
  rfl

end MatchingEngine

/-! ### Exchanges that are alike -/

namespace Exchange

variable {x y : Exchange}

/-- The exchanges differ in their indices only. -/
def SameQueues (x y : Exchange) : Prop := y.queues = x.queues ∧ y.free = x.free

namespace SameQueues

theorem fills (h : SameQueues x y) (locate : UInt64) (o : OrderInfo) :
    y.fills locate o = x.fills locate o := by
  rw [Exchange.fills, Exchange.fills, h.1]

theorem matched (h : SameQueues x y) (locate : UInt64) (o : OrderInfo) :
    SameQueues (x.matched locate o) (y.matched locate o) := by
  simp only [SameQueues, Exchange.matched, settled, h.fills, h.1, h.2, and_self]

/-- An order that may rest. -/
theorem submitDay (h : SameQueues x y) (locate : UInt64) (o : OrderInfo) :
    (y.submitDay true locate o).2 = (x.submitDay true locate o).2 ∧
      SameQueues (x.submitDay true locate o).1 (y.submitDay true locate o).1 := by
  have hm := h.matched locate o
  simp only [Exchange.submitDay, h.fills]
  by_cases hfilled : ((x.fills locate o).taker o).status = .filled
  · simp only [if_pos hfilled]
    exact ⟨trivial, hm⟩
  · simp only [if_neg hfilled, rest, hm.2]
    by_cases hroom : ((x.fills locate o).taker o).side = .invalid ∨ (x.matched locate o).free = 0
    · simp only [if_pos hroom]
      exact ⟨trivial, hm⟩
    · simp only [if_neg hroom, SameQueues, enter, hm.1, hm.2, and_self]

/-- An order that may not rest. -/
theorem submitNow (h : SameQueues x y) (locate : UInt64) (o : OrderInfo) (needed : UInt32)
    (code : ErrorCode) :
    (y.submitNow locate o needed code).2 = (x.submitNow locate o needed code).2 ∧
      SameQueues (x.submitNow locate o needed code).1 (y.submitNow locate o needed code).1 := by
  have hm := h.matched locate o
  simp only [Exchange.submitNow, h.fills]
  by_cases hfilled : ((x.fills locate o).taker o).status = .filled
  · simp only [if_pos hfilled]
    exact ⟨trivial, hm⟩
  · simp only [if_neg hfilled]
    by_cases hfew : ((x.fills locate o).taker o).filledQty < needed
    · simp only [if_pos hfew]
      exact ⟨trivial, hm⟩
    · simp only [if_neg hfew]
      exact ⟨trivial, hm⟩

theorem remove (h : SameQueues x y) (locate : UInt64) (o : OrderInfo) :
    SameQueues (x.remove locate o) (y.remove locate o) := by
  simp only [SameQueues, Exchange.remove, h.1, h.2, and_self]

/-- A call, if the indices find the same orders. -/
theorem step (h : SameQueues x y)
    (howned : ∀ locate ref userId, y.owned locate ref userId = x.owned locate ref userId)
    (c : Call) :
    (y.step true c).2 = (x.step true c).2 ∧ SameQueues (x.step true c).1 (y.step true c).1 := by
  cases c with
  | add locate ref side price quantity userId tif =>
      simp only [Exchange.step, add]
      cases refusal locate ref side price quantity userId tif with
      | some code => exact ⟨rfl, h⟩
      | none =>
          cases tif with
          | day => exact h.submitDay locate _
          | ioc => exact h.submitNow locate _ _ _
          | fok =>
              simp only [h.1]
              split_ifs
              · exact h.submitNow locate _ _ _
              · exact ⟨rfl, h⟩
  | cancel locate ref userId =>
      simp only [Exchange.step, cancel, howned]
      cases x.owned locate ref userId with
      | none => exact ⟨rfl, h⟩
      | some o => exact ⟨rfl, h.remove locate o⟩
  | cancelShares locate ref shares userId =>
      simp only [Exchange.step, cancelShares, howned]
      cases x.owned locate ref userId with
      | none => exact ⟨rfl, h⟩
      | some o =>
          simp only
          split_ifs
          · exact ⟨rfl, h.remove locate o⟩
          · refine ⟨rfl, ?_⟩
            simp only [SameQueues, reduce, h.1, h.2, and_self]
  | replace locate oldRef newRef side price quantity userId =>
      simp only [Exchange.step, replace, howned]
      cases x.owned locate oldRef userId with
      | none => exact ⟨rfl, h⟩
      | some o => exact (h.remove locate o).submitDay locate _

end SameQueues

/-- The same queues and as many free slots, and both indices know every order. -/
structure Alike (x y : Exchange) : Prop where
  same : SameQueues x y
  left : x.Complete
  right : y.Complete

/-- Exchanges that are alike answer a call alike, and stay so if the indices keep what they are
given. -/
theorem Alike.step (h : Alike x y) (hx : x.Proper) (hy : y.Proper) (c : Call) :
    (y.step true c).2 = (x.step true c).2 ∧ Alike (x.step true c).1 (y.step true c).1 := by
  have howned : ∀ locate ref userId, y.owned locate ref userId = x.owned locate ref userId := by
    intro locate ref userId
    have hagree : Agree locate y x := fun d => by rw [h.same.1]
    exact hagree.owned h.right h.left ref userId
  obtain ⟨hout, hsame⟩ := h.same.step howned c
  exact ⟨hout, hsame, (step_does true x c).complete h.left hx,
    (step_does true y c).complete h.right hy⟩

end Exchange

namespace MatchingEngine

variable {e d e' d' : MatchingEngine}

end MatchingEngine

namespace OrderBook

end OrderBook

namespace MatchingEngine

variable {e : MatchingEngine}

section
variable {d₀ : MatchingEngine} {c : Nat} {metrics : Option IOCounters}
variable {wal : Option WalWriter} {tradePool : Option TradePool}

end

end MatchingEngine

end NebulaX
