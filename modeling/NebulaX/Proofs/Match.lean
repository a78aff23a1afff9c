import NebulaX.Proofs.Abstraction
import NebulaX.Proofs.Greedy

/-!
# `NebulaX.Proofs.Match`: the matching loop is the greedy match

`fill_spec` is one round of `matchBuyOrder` and `matchSellOrder`: a trade with a resting
order, which then leaves the book or stays in its place with less. `matchLoop_spec` is the
whole loop: it ends, it keeps the invariant, and on the abstract exchange it is `greedy`, round
by round (`loopRounds`).

The induction is on the step bound. Each round either uses the incoming order up or takes
an order off the queue, so a bound above the length of the queue is enough.
-/

set_option autoImplicit false

namespace NebulaX

open NebulaX.Lib

namespace Queue

/-- Changing an order does not matter to a queue it is taken off. -/
theorem without_modify {ref : UInt64} {f : OrderInfo → OrderInfo}
    (hf : ∀ o, (f o).orderId = o.orderId) (q : List OrderInfo) :
    without ref (modify ref f q) = without ref q := by
  induction q with
  | nil => rfl
  | cons o q ih =>
      by_cases ho : o.orderId = ref
      · simpa [without, modify, ho, hf] using ih
      · simpa [without, modify, ho] using ih

end Queue

/-- The exchange after a trade of `quantity` with the resting order `o` of place
`(locate, d)`. -/
def Exchange.traded (x : Exchange) (locate : UInt64) (d : BookSide) (o : OrderInfo)
    (quantity : UInt32) : Exchange :=
  if o.remainingQty = quantity then x.remove locate o
  else { x with
    queues := Function.update x.queues (locate, d)
      (Queue.modify o.orderId (fun o => o.filledBy quantity) (x.queues (locate, d))) }

namespace MatchingEngine

variable {B : UInt64 → BookLevels} {pool : OrderPool} {index : OrderMap}
variable {locate seq : UInt64} {d : BookSide} {st : MatchState} {best : UInt32}

/-- The frame of a trade with a resting order. -/
def tradeFrame (locate : UInt64) (d : BookSide) (o : OrderInfo) (quantity : UInt32) :
    BinaryResponse :=
  .trade { locate := locate, orderRef := o.orderId, side := d.side, price := o.price
           quantity := quantity }

/-- The incoming order after a trade. -/
def takerAfter (o : OrderInfo) (quantity : UInt32) : OrderInfo :=
  { o with
    remainingQty := o.remainingQty - quantity
    filledQty := o.filledQty + quantity
    status := if o.remainingQty - quantity = 0 then .filled else .partiallyFilled }

/-- The write of a trade to its resting order. -/
def tradeWrite (quantity : UInt32) (s : OrderStatus) (o : Order) : Order :=
  { o with
    remainingQty := o.remainingQty - quantity
    filledQty := o.filledQty + quantity
    status := s }

/-- The level a trade is booked on is the one of the order as it was. -/
theorem reduceOrderQty_eq (b : OrderBook) (idx quantity : UInt32) :
    b.reduceOrderQty idx quantity
      = (b.modifyOrder idx fun o => { o with
          remainingQty := o.remainingQty - quantity
          filledQty := o.filledQty + quantity }).reduceLevel
        (b.pool.storage idx).side.bookSide (b.pool.storage idx).price quantity := by
  have hself : ∀ f : Order → Order,
      (b.modifyOrder idx f).pool.storage idx = f (b.pool.storage idx) :=
    fun f => Function.update_self _ _ _
  rw [OrderBook.reduceOrderQty, hself]

/-- A trade and the status after it, as one write. -/
theorem reduceOrderQty_setStatus (b : OrderBook) (idx quantity : UInt32) (s : OrderStatus) :
    (b.reduceOrderQty idx quantity).modifyOrder idx (fun o => { o with status := s })
      = (b.modifyOrder idx (tradeWrite quantity s)).reduceLevel
          (tradeWrite quantity s (b.pool.storage idx)).side.bookSide
          (tradeWrite quantity s (b.pool.storage idx)).price quantity := by
  have htwice : ∀ f g : Order → Order,
      (b.modifyOrder idx f).modifyOrder idx g = b.modifyOrder idx fun o => g (f o) := by
    intro f g
    simp [OrderBook.modifyOrder, OrderPool.modify]
  have hcomm : ∀ (b : OrderBook) (d : BookSide) (price : UInt32) (f : Order → Order),
      (b.reduceLevel d price quantity).modifyOrder idx f
        = (b.modifyOrder idx f).reduceLevel d price quantity := fun _ _ _ _ => rfl
  rw [reduceOrderQty_eq, hcomm, htwice]
  rfl

/-- A trade of `quantity` with a resting order, seen from the book. -/
theorem settle_spec (h : Rep B pool index) (hi : best ∈ placeSlots B pool.storage (locate, d))
    (quantity : UInt32) :
    ∃ b', settle (OrderBook.reduceOrderQty ⟨B locate, pool, index⟩ best quantity) best
        = some b' ∧
      Rep (Function.update B locate b'.toBookLevels) b'.pool b'.index ∧
      absOf (Function.update B locate b'.toBookLevels) b'.pool b'.index
        = (absOf B pool index).traded locate d (pool.info best) quantity ∧
      Shrinks B (Function.update B locate b'.toBookLevels) pool b'.pool ∧
      b'.pool.capacity = pool.capacity := by
  have hside : (pool.info best).side.bookSide = d := h.bookSide_eq hi
  have hleft : ((OrderBook.reduceOrderQty ⟨B locate, pool, index⟩ best quantity).pool.storage
      best).remainingQty = (pool.info best).remainingQty - quantity := by
    rw [reduceOrderQty_eq]
    exact congrArg (fun o => o.remainingQty) (Function.update_self best _ pool.storage)
  have hwrite := fun s : OrderStatus => h.of_reduce hi quantity (f := tradeWrite quantity s)
    (g := fun o => { o with
      remainingQty := o.remainingQty - quantity
      filledQty := o.filledQty + quantity
      status := s })
    (fun _ => rfl) (fun _ => rfl) (fun _ => rfl) fun _ => rfl
  unfold settle
  by_cases hfull : (pool.info best).remainingQty = quantity
  · -- The resting order is used up and leaves.
    obtain ⟨lv, heq, hrep, habs, hslots, hsh⟩ := hwrite .filled
    obtain ⟨b', hrem, hrep', habs', hsh', hcap'⟩ := hrep.removeOrder
      (show best ∈ placeSlots _ _ (locate, d) by rw [hslots]; exact hi)
    rw [Function.update_self, ← heq, ← reduceOrderQty_setStatus] at hrem
    rw [Function.update_idem] at hrep' habs' hsh'
    refine ⟨b', ?_, hrep', ?_, hsh.trans hsh', hcap'⟩
    · rw [if_pos (hleft.trans (sub_eq_zero.mpr hfull)), hrem]
    · have hinfo : (pool.modify best (tradeWrite quantity .filled)).info best
          = { pool.info best with
              remainingQty := (pool.info best).remainingQty - quantity
              filledQty := (pool.info best).filledQty + quantity
              status := .filled } := by
        simp [OrderPool.info, tradeWrite]
      rw [habs', habs, Exchange.traded, if_pos hfull, hinfo]
      simp only [Exchange.remove, hside, Function.update_self, Function.update_idem]
      rw [Queue.without_modify]
      exact fun _ => rfl
  · obtain ⟨lv, heq, hrep, habs, -, hsh⟩ := hwrite .partiallyFilled
    refine ⟨_, if_neg fun e => hfull (sub_eq_zero.mp (hleft.symm.trans e)), ?_⟩
    rw [reduceOrderQty_setStatus, heq]
    refine ⟨hrep, habs.trans ?_, hsh, rfl⟩
    rw [Exchange.traded, if_neg hfull]
    rfl

/-- One round of the loop. -/
theorem fill_spec (seq : UInt64) (h : Rep B pool index) (hb : st.book = ⟨B locate, pool, index⟩)
    (hi : best ∈ placeSlots B pool.storage (locate, d)) :
    ∃ st', fill d locate seq best st = some st' ∧
      Rep (Function.update B locate st'.book.toBookLevels) st'.book.pool st'.book.index ∧
      absOf (Function.update B locate st'.book.toBookLevels) st'.book.pool st'.book.index
        = (absOf B pool index).traded locate d (pool.info best)
          (min st.order.remainingQty (pool.info best).remainingQty) ∧
      Shrinks B (Function.update B locate st'.book.toBookLevels) pool st'.book.pool ∧
      st'.book.pool.capacity = pool.capacity ∧
      st'.order = { st.order with
        toOrderInfo := takerAfter st.order.toOrderInfo
          (min st.order.remainingQty (pool.info best).remainingQty) } ∧
      st'.out = st.out ++ [tradeFrame locate d (pool.info best)
        (min st.order.remainingQty (pool.info best).remainingQty)] := by
  obtain ⟨b', hset, hrep, habs, hsh, hcap⟩ := settle_spec h hi
    (min st.order.remainingQty (pool.info best).remainingQty)
  have hmaker : ∀ q, ((st.book.reduceOrderQty best q).pool.storage best).orderId
      = (pool.info best).orderId ∧ ((st.book.reduceOrderQty best q).pool.storage best).price
      = (pool.info best).price := by
    intro q
    rw [reduceOrderQty_eq, hb]
    constructor
    · exact congrArg (fun o => o.orderId) (Function.update_self best _ pool.storage)
    · exact congrArg (fun o => o.price) (Function.update_self best _ pool.storage)
  have hrest : (st.book.pool.storage best).remainingQty = (pool.info best).remainingQty := by
    rw [hb]
    rfl
  obtain ⟨st', hfill, hbook, horder, hout⟩ : ∃ st', fill d locate seq best st = some st' ∧
      st'.book = b' ∧ st'.order = { st.order with
        toOrderInfo := takerAfter st.order.toOrderInfo
          (min st.order.remainingQty (pool.info best).remainingQty) } ∧
      st'.out = st.out ++ [tradeFrame locate d (pool.info best)
        (min st.order.remainingQty (pool.info best).remainingQty)] := by
    rw [← hb] at hset
    simp only [fill, hrest, hset, (hmaker _).1, (hmaker _).2]
    exact ⟨_, rfl, rfl, rfl, rfl⟩
  subst hbook
  exact ⟨st', hfill, hrep, habs, hsh, hcap, horder, hout⟩

/-- Nothing was traded. -/
theorem settled_of_no_trade (x : Exchange) (locate : UInt64) (d : BookSide) (rest : UInt32) :
    x.settled locate d ⟨[], x.queues (locate, d), rest⟩ = x := by
  simp [Exchange.settled, Fills.consumed]

/-- One trade and the match after it are one match. -/
theorem settled_traded {x : Exchange} {own rest : List OrderInfo} {o : OrderInfo} {u : UInt64}
    {limit n : UInt32} (hq : x.queues (locate, d) = own ++ o :: rest)
    (hown : ∀ y ∈ own, Skips u y) (ho : ¬ Skips u o) (hb : ¬ d.Better limit o.price)
    (hn : n ≠ 0) (hside : o.side.bookSide = d)
    (hids : ∀ y ∈ own ++ rest, y.orderId ≠ o.orderId) :
    (x.traded locate d o (min n o.remainingQty)).settled locate d
        (greedy d u limit (n - min n o.remainingQty)
          ((x.traded locate d o (min n o.remainingQty)).queues (locate, d)))
      = x.settled locate d (greedy d u limit n (x.queues (locate, d))) ∧
    (greedy d u limit n (x.queues (locate, d))).trades
      = (o, min n o.remainingQty) ::
        (greedy d u limit (n - min n o.remainingQty)
          ((x.traded locate d o (min n o.remainingQty)).queues (locate, d))).trades ∧
    (greedy d u limit n (x.queues (locate, d))).rest
      = (greedy d u limit (n - min n o.remainingQty)
          ((x.traded locate d o (min n o.remainingQty)).queues (locate, d))).rest := by
  rw [hq, greedy_append_of_skips hown, greedy_cons_of_trade hn ho hb]
  by_cases hfull : o.remainingQty = min n o.remainingQty
  · -- The resting order left; the rest of the queue closes up behind the own orders.
    have hx : x.traded locate d o (min n o.remainingQty) = x.remove locate o := by
      rw [Exchange.traded, if_pos hfull]
    have hqueue : (x.remove locate o).queues (locate, d) = own ++ rest := by
      simp only [Exchange.remove, hside, Function.update_self]
      rw [hq, Queue.without_split hids]
    rw [hx, hqueue, greedy_append_of_skips hown, if_pos hfull]
    refine ⟨?_, rfl, rfl⟩
    simp only [Exchange.settled, Exchange.remove, hside, Function.update_idem,
      Exchange.mk.injEq, true_and]
    constructor
    · funext k
      by_cases hk : k = o.orderId
      · subst hk
        simp [Fills.consumed, ← hfull]
      · have hne : (k == o.orderId) = false := by simpa using hk
        simp [Fills.consumed, ← hfull, hk, hne]
    · simp [Fills.consumed, ← hfull]
      omega
  · -- The resting order is left with something, so the incoming one is not.
    have hzero := sub_min_eq_zero_of_ne hfull
    have hx : x.traded locate d o (min n o.remainingQty) = { x with
        queues := Function.update x.queues (locate, d)
          (own ++ o.filledBy (min n o.remainingQty) :: rest) } := by
      rw [Exchange.traded, if_neg hfull, hq, Queue.modify_split hids]
    rw [hx, hzero]
    simp only [Function.update_self, greedy_zero, if_neg hfull]
    refine ⟨?_, trivial, trivial⟩
    simp [Exchange.settled, Fills.consumed, hfull]

/-- What the loop makes of its state: the match `r` of the incoming order. -/
structure Matched (B : UInt64 → BookLevels) (pool : OrderPool) (index : OrderMap)
    (locate : UInt64) (d : BookSide) (r : Fills) (st st' : MatchState) : Prop where
  rep : Rep (Function.update B locate st'.book.toBookLevels) st'.book.pool st'.book.index
  abs : absOf (Function.update B locate st'.book.toBookLevels) st'.book.pool st'.book.index
    = (absOf B pool index).settled locate d r
  shrinks : Shrinks B (Function.update B locate st'.book.toBookLevels) pool st'.book.pool
  capacity : st'.book.pool.capacity = pool.capacity
  order : st'.order = { st.order with toOrderInfo := r.taker st.order.toOrderInfo }
  out : st'.out = st.out ++ r.frames locate d

/-- A loop that stops at once has matched nothing. -/
theorem Matched.refl (h : Rep B pool index) (hb : st.book = ⟨B locate, pool, index⟩) :
    Matched B pool index locate d
      ⟨[], (absOf B pool index).queues (locate, d), st.order.remainingQty⟩ st st := by
  have hself : Function.update B locate st.book.toBookLevels = B := by
    rw [hb, Function.update_eq_self]
  constructor
  case rep =>
    rw [hself, hb]
    exact h
  case abs => rw [hself, settled_of_no_trade, hb]
  case shrinks =>
    rw [hself, hb]
    exact Shrinks.refl B pool
  case capacity => rw [hb]
  case order => simp [Fills.taker]
  case out => simp [Fills.frames]

/-- One round and the loop after it. -/
theorem Matched.trade {st₁ st' : MatchState} {r r₁ : Fills} {o : OrderInfo}
    {quantity : UInt32}
    (hsh : Shrinks B (Function.update B locate st₁.book.toBookLevels) pool st₁.book.pool)
    (hcap : st₁.book.pool.capacity = pool.capacity)
    (horder : st₁.order
      = { st.order with toOrderInfo := takerAfter st.order.toOrderInfo quantity })
    (hout : st₁.out = st.out ++ [tradeFrame locate d o quantity])
    (hm : Matched (Function.update B locate st₁.book.toBookLevels) st₁.book.pool
      st₁.book.index locate d r₁ st₁ st')
    (habs : (absOf (Function.update B locate st₁.book.toBookLevels) st₁.book.pool
        st₁.book.index).settled locate d r₁ = (absOf B pool index).settled locate d r)
    (htrades : r.trades = (o, quantity) :: r₁.trades) (hrest : r.rest = r₁.rest)
    (hnil : r₁.trades = [] → r₁.rest = st.order.remainingQty - quantity) :
    Matched B pool index locate d r st st' := by
  obtain ⟨hrep', habs', hsh', hcap', horder', hout'⟩ := hm
  rw [Function.update_idem] at hrep' habs' hsh'
  refine ⟨hrep', habs'.trans habs, hsh.trans hsh', hcap'.trans hcap, ?_, ?_⟩
  · have htaker := taker_of_trade st.order.toOrderInfo quantity r₁ (o, quantity) hnil
    have hr : r.taker st.order.toOrderInfo
        = Fills.taker { r₁ with trades := (o, quantity) :: r₁.trades } st.order.toOrderInfo := by
      simp only [Fills.taker, htrades, hrest]
    rw [horder', horder, hr, ← htaker]
    rfl
  · rw [hout', hout, Fills.frames, Fills.frames, htrades, List.append_assoc]
    rfl

/-- The rounds of the loop: the state before each of them, and the slot it trades with. -/
def loopRounds (d : BookSide) (locate seq : UInt64) :
    Nat → MatchState → List (MatchState × UInt32)
  | 0, _ => []
  | fuel + 1, st =>
      if st.order.remainingQty = 0 then []
      else
        match st.book.getBest d st.order.userId with
        | some (some best) =>
            if Beyond d st.order.price (st.book.pool.storage best).price then []
            else (st, best) ::
              match fill d locate seq best st with
              | some st => loopRounds d locate seq fuel st
              | none => []
        | _ => []

/-- What a round trades: the resting order and the quantity. -/
def roundTrade (x : MatchState × UInt32) : OrderInfo × UInt32 :=
  (x.1.book.pool.info x.2, min x.1.order.remainingQty (x.1.book.pool.info x.2).remainingQty)

theorem loopRounds_of_zero (d : BookSide) (locate seq : UInt64) (fuel : Nat)
    (hr : st.order.remainingQty = 0) : loopRounds d locate seq fuel st = [] := by
  cases fuel <;> simp [loopRounds, hr]

/-- The whole loop. Its rounds are the trades of the match. -/
theorem matchLoop_spec (seq : UInt64) (st : MatchState) (fuel : Nat) (h : Rep B pool index)
    (hb : st.book = ⟨B locate, pool, index⟩)
    (hf : (placeSlots B pool.storage (locate, d)).length < fuel) :
    ∃ st', matchLoop d locate seq fuel st = some st' ∧
      Matched B pool index locate d (greedy d st.order.userId st.order.price
        st.order.remainingQty ((absOf B pool index).queues (locate, d))) st st' ∧
      (loopRounds d locate seq fuel st).map roundTrade = (greedy d st.order.userId st.order.price
        st.order.remainingQty ((absOf B pool index).queues (locate, d))).trades := by
  induction fuel generalizing B pool index st with
  | zero => omega
  | succ fuel ih =>
      by_cases hr : st.order.remainingQty = 0
      · refine ⟨st, by simp only [matchLoop, if_pos hr], ?_⟩
        have hm := Matched.refl (d := d) h hb
        rw [loopRounds_of_zero d locate seq _ hr]
        rw [hr] at hm ⊢
        rw [greedy_zero]
        exact ⟨hm, rfl⟩
      · have hbest := h.toBooksRep.getBest_eq locate d st.order.userId index
        rw [← hb] at hbest
        cases hfind : (placeSlots B pool.storage (locate, d)).find? fun i =>
            ¬ Skips st.order.userId (pool.info i) with
        | none =>
            -- Every order of the queue is the taker's own.
            have hall : ∀ o ∈ (absOf B pool index).queues (locate, d),
                Skips st.order.userId o := by
              intro o ho
              obtain ⟨i, hi, rfl⟩ := List.mem_map.mp ho
              simpa using List.find?_eq_none.mp hfind i hi
            rw [hfind] at hbest
            refine ⟨st, by simp [matchLoop, hr, hbest], ?_⟩
            rw [greedy_of_skips hall]
            exact ⟨Matched.refl h hb, by simp [loopRounds, hr, hbest]⟩
        | some best =>
            rw [hfind] at hbest
            obtain ⟨hskip, own, rest, hsplit, hown⟩ := List.find?_eq_some_iff_append.mp hfind
            have hmem : best ∈ placeSlots B pool.storage (locate, d) := by simp [hsplit]
            have hq : (absOf B pool index).queues (locate, d)
                = own.map pool.info ++ pool.info best :: rest.map pool.info := by
              simp [absOf, hsplit]
            have hskip' : ¬ Skips st.order.userId (pool.info best) := by simpa using hskip
            have hown' : ∀ o ∈ own.map pool.info, Skips st.order.userId o := by
              intro o ho
              obtain ⟨i, hi, rfl⟩ := List.mem_map.mp ho
              simpa using hown i hi
            have hprice : (st.book.pool.storage best).price = (pool.info best).price := by
              rw [hb]
              rfl
            by_cases hbey : Beyond d st.order.price (st.book.pool.storage best).price
            · -- The best order of another user is beyond the limit.
              refine ⟨st, by simp [matchLoop, hr, hbest, hbey], ?_⟩
              rw [hprice] at hbey
              have hg : greedy d st.order.userId st.order.price st.order.remainingQty
                  ((absOf B pool index).queues (locate, d))
                  = ⟨[], (absOf B pool index).queues (locate, d), st.order.remainingQty⟩ := by
                rw [hq, greedy_append_of_skips hown', greedy_cons_of_beyond hskip' hbey]
              rw [hg]
              refine ⟨Matched.refl h hb, ?_⟩
              rw [← hprice] at hbey
              simp [loopRounds, hr, hbest, hbey]
            · obtain ⟨st₁, hfill, hrep, habs, hsh, hcap, horder, hout⟩ :=
                fill_spec seq h hb hmem
              have hb₁ : st₁.book = ⟨Function.update B locate st₁.book.toBookLevels locate,
                  st₁.book.pool, st₁.book.index⟩ := by
                rw [Function.update_self]
              have hrest₁ : st₁.order.remainingQty = st.order.remainingQty
                  - min st.order.remainingQty (pool.info best).remainingQty := by
                rw [horder]
                rfl
              have hside : (pool.info best).side.bookSide = d := h.bookSide_eq hmem
              -- The rest of the loop: it stops at once, or the queue got shorter.
              obtain ⟨st', hloop, hm, hrounds⟩ : ∃ st',
                  matchLoop d locate seq fuel st₁ = some st' ∧
                  Matched (Function.update B locate st₁.book.toBookLevels) st₁.book.pool
                    st₁.book.index locate d (greedy d st₁.order.userId st₁.order.price
                      st₁.order.remainingQty ((absOf (Function.update B locate
                        st₁.book.toBookLevels) st₁.book.pool st₁.book.index).queues
                          (locate, d))) st₁ st' ∧
                  (loopRounds d locate seq fuel st₁).map roundTrade
                    = (greedy d st₁.order.userId st₁.order.price st₁.order.remainingQty
                      ((absOf (Function.update B locate st₁.book.toBookLevels) st₁.book.pool
                        st₁.book.index).queues (locate, d))).trades := by
                have hlen : (placeSlots B pool.storage (locate, d)).length
                    = own.length + (rest.length + 1) := by simp [hsplit]
                by_cases hz : st₁.order.remainingQty = 0
                · obtain ⟨fuel, rfl⟩ : ∃ n, fuel = n + 1 := ⟨fuel - 1, by omega⟩
                  refine ⟨st₁, by simp only [matchLoop, if_pos hz], ?_⟩
                  have hm := Matched.refl (d := d) hrep hb₁
                  rw [loopRounds_of_zero d locate seq _ hz]
                  rw [hz] at hm ⊢
                  rw [greedy_zero]
                  exact ⟨hm, rfl⟩
                · refine ih st₁ hrep hb₁ ?_
                  have hfull : (pool.info best).remainingQty
                      = min st.order.remainingQty (pool.info best).remainingQty :=
                    Decidable.byContradiction fun hne =>
                      hz (hrest₁.trans (sub_min_eq_zero_of_ne hne))
                  have hlen₁ := congrArg (fun x => (x.queues (locate, d)).length) habs
                  simp only [Exchange.traded, if_pos hfull, Exchange.remove, hside,
                    Function.update_self, hq, Queue.without_split (h.ne_of_split hsplit)] at hlen₁
                  simp only [absOf, List.length_map, List.length_append] at hlen₁
                  omega
              rw [habs] at hm hrounds
              have huser : st₁.order.userId = st.order.userId := by
                rw [horder]
                rfl
              have hlimit : st₁.order.price = st.order.price := by
                rw [horder]
                rfl
              rw [huser, hlimit, hrest₁] at hm hrounds
              obtain ⟨hset, htrades, hrest⟩ := settled_traded hq hown' hskip'
                (hprice ▸ hbey) hr hside (h.ne_of_split hsplit)
              refine ⟨st', by simp [matchLoop, hr, hbest, hbey, hfill, hloop], ?_, ?_⟩
              · exact Matched.trade hsh hcap horder hout hm (by rw [habs]; exact hset) htrades
                  hrest greedy_rest_of_trades_nil
              · have hfirst : roundTrade (st, best) = (pool.info best,
                    min st.order.remainingQty (pool.info best).remainingQty) := by
                  simp only [roundTrade, hb]
                simp [loopRounds, hr, hbest, hbey, hfill, hfirst, hrounds, htrades]

end MatchingEngine

end NebulaX
