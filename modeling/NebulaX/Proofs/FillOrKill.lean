import NebulaX.Proofs.Runs

/-!
# `NebulaX.Proofs.FillOrKill`: fill-or-kill orders

`processAdd` decides a fill-or-kill order by two walks over the other side of the book.
`availableQty` adds up all orders within the limit in 32 bits, and the matching loop then
passes over the orders of the taker. `fill_or_kill` says for which books the two agree with
what others really offer.
-/

set_option autoImplicit false

namespace NebulaX

open NebulaX.Lib

/-! ### The two volumes -/

/-- What a queue offers at `limit` or better, whoever owns it. -/
def onOffer (d : BookSide) (limit : UInt32) (q : List OrderInfo) : Nat :=
  ((q.filter fun o => ¬ d.Better limit o.price).map fun o => o.remainingQty.toNat).sum

theorem toNat_sum_remainingQty (q : List OrderInfo) :
    (q.map fun o : OrderInfo => o.remainingQty).sum.toNat
      = (q.map fun o => o.remainingQty.toNat).sum % 2 ^ 32 := by
  induction q with
  | nil => rfl
  | cons o q ih =>
      rw [List.map_cons, List.sum_cons, List.map_cons, List.sum_cons, UInt32.toNat_add, ih]
      omega

section
variable {d : BookSide} {u : UInt64} {limit rest : UInt32} {q : List OrderInfo}

/-- The prices within the limit stand in front. -/
theorem Queue.Sorted.takeWhile_eq_filter (hq : Queue.Sorted d q) :
    (q.takeWhile fun o => ¬ d.Better limit o.price)
      = q.filter fun o => ¬ d.Better limit o.price := by
  induction q with
  | nil => rfl
  | cons o q ih =>
      obtain ⟨hhead, hq'⟩ := List.pairwise_cons.mp hq
      by_cases hb : d.Better limit o.price
      · have hnone : ∀ y ∈ q, d.Better limit y.price := fun y hy =>
          better_of_not_better hb (hhead y hy)
        rw [List.takeWhile_cons_of_neg (by simpa using hb),
          List.filter_cons_of_neg (by simpa using hb), eq_comm, List.filter_eq_nil_iff]
        simpa using hnone
      · rw [List.takeWhile_cons_of_pos (by simpa using hb),
          List.filter_cons_of_pos (by simpa using hb), ih hq']

/-- `availableQty` is the whole volume modulo `2 ^ 32`. -/
theorem available_toNat (hq : Queue.Sorted d q) :
    (Queue.available d limit q).toNat = onOffer d limit q % 2 ^ 32 := by
  rw [Queue.available, hq.takeWhile_eq_filter, toNat_sum_remainingQty]
  rfl

/-- Nothing is taken from a queue that holds only own orders and orders beyond the limit. -/
theorem greedy_of_idle (h : ∀ o ∈ q, Skips u o ∨ d.Better limit o.price) :
    greedy d u limit rest q = ⟨[], q, rest⟩ := by
  induction q with
  | nil => rfl
  | cons o q ih =>
      by_cases hs : Skips u o
      · rw [greedy_cons_of_skips hs, ih fun y hy => h y (List.mem_cons_of_mem o hy)]
      · exact greedy_cons_of_beyond hs ((h o List.mem_cons_self).resolve_left hs) q

/-- A taker that trades with nobody finds only own orders and orders beyond its limit. -/
theorem idle_of_trades_nil (hq : Queue.Sorted d q) (hr : rest ≠ 0)
    (h : (greedy d u limit rest q).trades = []) :
    ∀ o ∈ q, Skips u o ∨ d.Better limit o.price := by
  intro o ho
  have hrest := greedy_rest_of_trades_nil h
  by_cases hs : Skips u o
  · exact Or.inl hs
  · by_cases hb : d.Better limit o.price
    · exact Or.inr hb
    · -- an order within the limit would have been traded with, whatever stands before it
      exfalso
      induction q with
      | nil => exact List.not_mem_nil ho
      | cons y q ih =>
          obtain ⟨hhead, hq'⟩ := List.pairwise_cons.mp hq
          by_cases hy : Skips u y
          · rw [greedy_cons_of_skips hy] at h hrest
            refine ih hq' h ?_ hrest
            exact (List.mem_cons.mp ho).resolve_left fun e => hs (e ▸ hy)
          · by_cases hyb : d.Better limit y.price
            · refine hb ?_
              rcases List.mem_cons.mp ho with rfl | ho
              · exact hyb
              · exact better_of_not_better hyb (hhead o ho)
            · rw [greedy_cons_of_trade hr hy hyb] at h
              exact List.cons_ne_nil _ _ h

/-- What is offered to a taker is what it can get. -/
theorem offered_of_rest_eq_zero (h : (greedy d u limit rest q).rest = 0) :
    rest.toNat ≤ offered d u limit q := by
  induction q generalizing rest with
  | nil =>
      rw [greedy_nil] at h
      simp only at h
      simp [h]
  | cons o q ih =>
      by_cases hr : rest = 0
      · simp [hr]
      by_cases hs : Skips u o
      · rw [greedy_cons_of_skips hs] at h
        have hle := ih h
        simpa [offered, hs] using hle
      by_cases hb : d.Better limit o.price
      · rw [greedy_cons_of_beyond hs hb] at h
        exact absurd h hr
      rw [greedy_cons_of_trade hr hs hb] at h
      have hle := ih h
      have hmin : min rest o.remainingQty ≤ o.remainingQty := Std.min_le_right
      have hmin' : min rest o.remainingQty ≤ rest := Std.min_le_left
      rw [UInt32.toNat_sub_of_le _ _ hmin'] at hle
      rw [UInt32.le_iff_toNat_le] at hmin
      have hoffer : offered d u limit (o :: q) = o.remainingQty.toNat + offered d u limit q := by
        simp [offered, hs, hb]
      omega

end

namespace MatchingEngine

/-- An order that finds nobody to trade with leaves the engine as it was. -/
theorem Inv.matchSide_idle {e e' : MatchingEngine} (h : e.Inv) {locate : UInt64} {order o : Order}
    {out : List BinaryResponse}
    (hidle : ∀ y ∈ e.abs.queues (locate, order.side.bookSide.opposite),
      Skips order.userId y ∨ order.side.bookSide.opposite.Better order.price y.price)
    (hm : e.matchSide locate order = some (e', o, out)) : SameBooks e e' := by
  rw [matchSide_eq] at hm
  generalize order.side.bookSide.opposite = d at hidle hm
  obtain ⟨st, hst⟩ : ∃ st : MatchState, st = ⟨e.book locate, order, [], e.metrics, e.tradePool,
      e.tradeId d⟩ := ⟨_, rfl⟩
  -- the loop stops before its first round
  have hloop : matchLoop d locate e.nextSequence (e.pool.capacity + 1) st = some st := by
    have hbest : st.book.getBest d st.order.userId = some ((e.slots (locate, d)).find? fun i =>
        ¬ Skips order.userId (e.pool.info i)) := by
      rw [hst]
      exact h.toBooksRep.getBest_eq locate d order.userId e.index
    rw [matchLoop, hbest]
    cases hfind : (e.slots (locate, d)).find? fun i => ¬ Skips order.userId (e.pool.info i) with
    | none => split <;> rfl
    | some best =>
        have hskip : ¬ Skips order.userId (e.pool.info best) := by
          simpa using List.find?_some hfind
        have hbeyond : Beyond d st.order.price (st.book.pool.storage best).price := by
          rw [hst]
          have hmem := List.mem_of_find?_eq_some hfind
          exact (hidle _ (List.mem_map.mpr ⟨best, hmem, rfl⟩)).resolve_left hskip
        split
        · rfl
        · exact if_pos hbeyond
  rw [matchOrder, ← hst, hloop] at hm
  obtain ⟨rfl, -⟩ := Prod.mk.inj (Option.some.inj hm)
  refine ⟨?_, by rw [hst]; rfl, by rw [hst]; rfl⟩
  show (e.putBook locate st.book).levelsOf = e.levelsOf
  rw [levelsOf_putBook, hst]
  exact Function.update_eq_self _ _

/-! ### The call -/

section
variable {e : MatchingEngine} {locate ref : UInt64} {side : Side} {price quantity : UInt32}
  {userId : UInt64}

/-- A fill-or-kill order that passes the checks is refused by `canFullFill`, or it is matched. -/
theorem Inv.processAdd_fok (h : e.Inv)
    (hvalid : Exchange.refusal locate ref side price quantity userId .fok = none) :
    let d := side.bookSide.opposite
    let limit := limitPrice .fok side price
    let q := e.abs.queues (locate, d)
    let o := Exchange.incoming ref side limit quantity userId
    (¬ quantity ≤ Queue.available d limit q ∧ ∃ e', e.processAdd locate ref side price quantity
        userId .fok = some (e', [.error .fokNoFullFill]) ∧ SameBooks e e') ∨
      (quantity ≤ Queue.available d limit q ∧ ∃ e', e.processAdd locate ref side price quantity
        userId .fok = some (e', (e.abs.submitNow locate o quantity .fokNoFullFill).2) ∧
        ((∀ y ∈ q, Skips userId y ∨ d.Better limit y.price) → SameBooks e e')) := by
  intro d limit q o
  have hcan : canFullFill (e.book locate) side limit quantity
    = some (decide (quantity ≤ Queue.available d limit q)) := canFullFill_eq h locate side _ _
  by_cases hav : quantity ≤ Queue.available d limit q
  · refine Or.inr ⟨hav, ?_⟩
    obtain ⟨order, e₂, e₃, horder, hs₂, hm, -, -, -, heq⟩ :=
      h.processAdd_passes ⟨hvalid, fun _ => by rw [hcan, decide_eq_true hav]⟩
    have hinfo : order.toOrderInfo = o := by
      rw [horder]
      rfl
    have hun₂ : SameBooks e e₂ := ⟨hs₂.levelsOf, hs₂.pool, hs₂.index⟩
    have habs₂ : e₂.abs = e.abs := hs₂.abs
    obtain ⟨e₄, hs₄, hfin⟩ := finishAdd_now e₃ e.abs locate order quantity quantity
      (Or.inr ⟨rfl, rfl, rfl⟩)
    refine ⟨e₄, ?_, fun hidle => ?_⟩
    · rw [heq, hfin, hinfo]
    · refine (hun₂.trans ((hun₂.inv h).matchSide_idle ?_ hm)).trans hs₄.sameBooks
      rw [habs₂, horder]
      exact hidle
  · obtain ⟨code, -, href, -⟩ | ⟨-, e₁, -, ho, -, heq⟩ :=
      processAdd_eq e locate ref side price quantity userId .fok
    · cases href.symm.trans hvalid
    · refine Or.inl ⟨hav, (e₁.reject .fokNoFullFill).1, ?_, (ho.count _).sameBooks⟩
      rw [heq, if_pos rfl, ho.toSame.book, hcan, decide_eq_false hav]
      rfl

/-- What a fill-or-kill order is to come to, with the volume others offer within its limit. -/
def FillsOrKills (e : MatchingEngine) (locate ref : UInt64) (side : Side)
    (price quantity : UInt32) (userId : UInt64) (r : MatchingEngine × List BinaryResponse) : Prop :=
  let volume := offered side.bookSide.opposite userId (limitPrice .fok side price)
    (e.abs.queues (locate, side.bookSide.opposite))
  (quantity.toNat ≤ volume → ∃ trades : List Trade, r.2 = trades.map .trade ++ [.filled ref] ∧
    (trades.map fun t => t.quantity.toNat).sum = quantity.toNat) ∧
  (volume < quantity.toNat → r.2 = [.error .fokNoFullFill] ∧ SameBooks e r.1)

/-- The test of `canFullFill` comes out as it should: the 32-bit sum over all owners covers the
quantity when others offer it, and when they do not, it does not cover it or there is nobody to
trade with. -/
def TestsRight (e : MatchingEngine) (locate : UInt64) (side : Side) (price quantity : UInt32)
    (userId : UInt64) : Prop :=
  let d := side.bookSide.opposite
  let limit := limitPrice .fok side price
  let q := e.abs.queues (locate, d)
  (quantity.toNat ≤ offered d userId limit q → quantity.toNat ≤ onOffer d limit q % 2 ^ 32) ∧
  (offered d userId limit q < quantity.toNat → quantity.toNat ≤ onOffer d limit q % 2 ^ 32 →
    ∀ y ∈ q, Skips userId y ∨ d.Better limit y.price)

/-- The answer to a matched fill-or-kill order. -/
theorem submitNow_out (x : Exchange) (hq : Queue.Sorted side.bookSide.opposite
      (x.queues (locate, side.bookSide.opposite))) (ref userId : UInt64) (limit : UInt32)
    (hpos : quantity ≠ 0) :
    let o := Exchange.incoming ref side limit quantity userId
    let q := x.queues (locate, side.bookSide.opposite)
    (quantity.toNat ≤ offered side.bookSide.opposite userId limit q →
      ∃ trades : List Trade, (x.submitNow locate o quantity .fokNoFullFill).2
          = trades.map .trade ++ [.filled ref] ∧
        (trades.map fun t => t.quantity.toNat).sum = quantity.toNat) ∧
    (offered side.bookSide.opposite userId limit q < quantity.toNat →
      (x.submitNow locate o quantity .fokNoFullFill).2
        = (x.fills locate o).frames locate side.bookSide.opposite ++ [.error .fokNoFullFill]) := by
  intro o q
  have hrest := @greedy_rest_toNat side.bookSide.opposite userId limit quantity q
  have hfills : x.fills locate o = greedy side.bookSide.opposite userId limit quantity q := rfl
  refine ⟨fun hle => ?_, fun hlt => ?_⟩
  · have hzero : (x.fills locate o).rest = 0 := greedy_rest_eq_zero hq hle
    have htrades : (x.fills locate o).trades ≠ [] := fun hnil => hpos
      ((greedy_rest_of_trades_nil hnil).symm.trans hzero)
    refine ⟨(x.fills locate o).trades.map fun t => { locate := locate, orderRef := t.1.orderId
                                                     side := side.bookSide.opposite.side
                                                     price := t.1.price, quantity := t.2 }, ?_, ?_⟩
    · rw [Exchange.submitNow, if_pos ((taker_filled_iff _ rfl).mpr ⟨htrades, hzero⟩),
        List.map_map]
      rfl
    · rw [← hfills, hzero] at hrest
      rw [List.map_map]
      exact (Nat.zero_add _).symm.trans hrest
  · have hne : (x.fills locate o).rest ≠ 0 := fun hzero =>
      absurd (offered_of_rest_eq_zero hzero) (Nat.not_le.mpr hlt)
    have hfilled : ((x.fills locate o).taker o).filledQty < quantity := by
      show 0 + (quantity - (x.fills locate o).rest) < quantity
      rw [← hfills] at hrest
      have hle : (x.fills locate o).rest ≤ quantity := UInt32.le_iff_toNat_le.mpr (by omega)
      have hpos' : (x.fills locate o).rest.toNat ≠ 0 := fun e => hne (UInt32.toNat_inj.mp e)
      rw [UInt32.zero_add, UInt32.lt_iff_toNat_lt, UInt32.toNat_sub_of_le _ _ hle]
      omega
    rw [Exchange.submitNow, if_neg (fun hs => hne ((taker_filled_iff _ rfl).mp hs).2),
      if_pos hfilled]
    rfl

/-- **Fill or kill.** A valid fill-or-kill order is filled as a whole when others offer the
quantity within its limit, and is refused without a trace when they do not, exactly when the
test of `canFullFill` comes out right. -/
theorem fill_or_kill (h : e.Inv)
    (hvalid : Exchange.refusal locate ref side price quantity userId .fok = none) :
    ∃ r, e.processAdd locate ref side price quantity userId .fok = some r ∧
      (e.FillsOrKills locate ref side price quantity userId r ↔
        e.TestsRight locate side price quantity userId) := by
  have hq := h.proper.sorted (locate, side.bookSide.opposite)
  have hpos := (Exchange.refusal_eq_none_iff.mp hvalid).2.2.2.1
  have hav : quantity ≤ Queue.available side.bookSide.opposite (limitPrice .fok side price)
        (e.abs.queues (locate, side.bookSide.opposite)) ↔
      quantity.toNat ≤ onOffer side.bookSide.opposite (limitPrice .fok side price)
        (e.abs.queues (locate, side.bookSide.opposite)) % 2 ^ 32 := by
    rw [UInt32.le_iff_toNat_le, available_toNat hq]
  obtain ⟨hyes, hno⟩ := submitNow_out e.abs hq ref userId (limitPrice .fok side price) hpos
  obtain ⟨hless, e', heq, hun⟩ | ⟨hcover, e', heq, hun⟩ := h.processAdd_fok hvalid
  · -- refused by the test
    rw [hav] at hless
    refine ⟨_, heq, ?_, ?_⟩
    · rintro ⟨hfill, -⟩
      refine ⟨fun hle => ?_, fun _ hle => absurd hle hless⟩
      obtain ⟨trades, hout, -⟩ := hfill hle
      cases trades <;> simp at hout
    · rintro ⟨hright, -⟩
      exact ⟨fun hle => absurd (hright hle) hless, fun _ => ⟨rfl, hun⟩⟩
  · rw [hav] at hcover
    refine ⟨_, heq, ?_, ?_⟩
    · rintro ⟨-, hkill⟩
      refine ⟨fun _ => hcover, fun hlt _ => ?_⟩
      -- a trade would stand before the error
      have hout := (hno hlt).symm.trans (hkill hlt).1
      have hnone : (e.abs.fills locate (Exchange.incoming ref side (limitPrice .fok side price)
          quantity userId)).trades = [] := by simpa [Fills.frames] using hout
      exact idle_of_trades_nil hq hpos hnone
    · rintro ⟨-, hright⟩
      refine ⟨hyes, fun hlt => ?_⟩
      have hidle := hright hlt hcover
      have hnone : (e.abs.fills locate (Exchange.incoming ref side (limitPrice .fok side price)
          quantity userId)).trades = [] := congrArg Fills.trades (greedy_of_idle hidle)
      refine ⟨(hno hlt).trans ?_, hun hidle⟩
      rw [Fills.frames, hnone]
      rfl

end

/-- Ten are offered and ten are asked for. -/
theorem fill_or_kill_ten : ∃ e₀ e outs r, ofCapacity 4 none none none = some e₀ ∧
    run exec e₀ [.add 0 1 .sell 100 10 1 .day] = some (e, outs) ∧
    e.processAdd 0 2 .buy 100 10 2 .fok = some r ∧
    r.2 = [.trade ⟨0, 1, .sell, 100, 10⟩, .filled 2] ∧ e.FillsOrKills 0 2 .buy 100 10 2 r := by
  obtain ⟨e₀, h₀⟩ : ∃ e₀, ofCapacity 4 none none none = some e₀ := ⟨_, rfl⟩
  have hrun : ((ofCapacity 4 none none none).bind fun e₀ =>
      (run exec e₀ [.add 0 1 .sell 100 10 1 .day]).map fun r => (r.1.abs.queues (0, .ask),
        (r.1.processAdd 0 2 .buy 100 10 2 .fok).map Prod.snd)) = some (
      [{ userId := 1, orderId := 1, side := .sell, price := 100, originalQty := 10
         remainingQty := 10 }],
      some [.trade ⟨0, 1, .sell, 100, 10⟩, .filled 2]) := by decide +kernel
  rw [h₀, Option.bind_some, Option.map_eq_some_iff] at hrun
  obtain ⟨⟨e, outs⟩, hrun, hend⟩ := hrun
  obtain ⟨hq, hout⟩ := Prod.mk.inj hend
  have hinv := Inv.of_trace (Inv.start h₀) (trace_of_adds h₀ (by decide) (by decide) hrun)
  obtain ⟨r, hr, hiff⟩ := fill_or_kill hinv
    (show Exchange.refusal 0 2 .buy 100 10 2 .fok = none by decide)
  refine ⟨e₀, e, outs, r, h₀, hrun, hr, ?_, hiff.mpr ?_⟩
  · rw [hr] at hout
    exact Option.some.inj hout
  · simp only [TestsRight, Side.bookSide, BookSide.opposite, hq]
    decide

/-- The taker's own order counts in the test and not in the match: five are traded, and the
order is answered as not filled. -/
theorem own_order_counts : ∃ e₀ e outs r, ofCapacity 4 none none none = some e₀ ∧
    run exec e₀ [.add 0 1 .sell 100 5 1 .day, .add 0 2 .sell 100 5 2 .day] = some (e, outs) ∧
    e.Inv ∧ Exchange.refusal 0 3 .buy 100 10 1 .fok = none ∧
    e.processAdd 0 3 .buy 100 10 1 .fok = some r ∧
    r.2 = [.trade ⟨0, 2, .sell, 100, 5⟩, .error .fokNoFullFill] ∧
    ¬ e.FillsOrKills 0 3 .buy 100 10 1 r := by
  obtain ⟨e₀, h₀⟩ : ∃ e₀, ofCapacity 4 none none none = some e₀ := ⟨_, rfl⟩
  have hrun : ((ofCapacity 4 none none none).bind fun e₀ =>
      (run exec e₀ [.add 0 1 .sell 100 5 1 .day, .add 0 2 .sell 100 5 2 .day]).map fun r =>
        (offered .ask 1 100 (r.1.abs.queues (0, .ask)),
          (r.1.processAdd 0 3 .buy 100 10 1 .fok).map Prod.snd)) = some (5,
      some [.trade ⟨0, 2, .sell, 100, 5⟩, .error .fokNoFullFill]) := by decide +kernel
  rw [h₀, Option.bind_some, Option.map_eq_some_iff] at hrun
  obtain ⟨⟨e, outs⟩, hrun, hend⟩ := hrun
  obtain ⟨hvolume, hout⟩ := Prod.mk.inj hend
  obtain ⟨r, hr, hout⟩ := Option.map_eq_some_iff.mp hout
  refine ⟨e₀, e, outs, r, h₀, hrun, ?_, by decide, hr, hout, ?_⟩
  · exact Inv.of_trace (Inv.start h₀) (trace_of_adds h₀ (by decide) (by decide) hrun)
  · rintro ⟨-, hkill⟩
    have hlt : offered .ask 1 100 (e.abs.queues (0, .ask)) < 10 := hvolume ▸ by decide
    have hone := (hkill hlt).1
    rw [hout] at hone
    cases hone

end MatchingEngine

end NebulaX
