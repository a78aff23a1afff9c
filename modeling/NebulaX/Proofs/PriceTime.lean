import NebulaX.Proofs.Representation

/-!
# `NebulaX.Proofs.PriceTime`: price-time priority

The reference match: take the resting orders of the other side that belong to another user
and have an acceptable price, best price first and by arrival within a price, and fill each
for the smaller of the two remaining quantities until the incoming order is used up
(`fillEach`). `afterTrades` is what that makes of the queue.

`greedy`, which the matching loop is shown to compute, walks the whole queue, passes over
own orders and stops at the first price beyond the limit. `greedy_trades_eq` and
`greedy_queue_eq` say that this is the reference match.
-/

set_option autoImplicit false

namespace NebulaX

open NebulaX.Lib

/-! ### The reference match -/

/-- Fill the orders one after the other until `rest` is used up. -/
def fillEach : UInt32 → List OrderInfo → List (OrderInfo × UInt32)
  | _, [] => []
  | rest, o :: os =>
      if rest = 0 then []
      else (o, min rest o.remainingQty) :: fillEach (rest - min rest o.remainingQty) os

/-- An incoming order takes a resting price: at most its limit for a buy, at least its
limit for a sell, and any price for an IOC or FOK order with price 0. -/
def Accepts (tif : OrderTif) (side : Side) (limit price : UInt32) : Prop :=
  ((tif = .ioc ∨ tif = .fok) ∧ limit = 0) ∨ (if side = .buy then price ≤ limit else limit ≤ price)

instance (tif : OrderTif) (side : Side) (limit price : UInt32) :
    Decidable (Accepts tif side limit price) := inferInstanceAs (Decidable (_ ∨ _))

/-- A queue after trades: an order that was used up is gone, one that was not keeps its
place with its quantities adjusted, and all others are as they were. -/
def afterTrades (trades : List (OrderInfo × UInt32)) (q : List OrderInfo) : List OrderInfo :=
  q.filterMap fun o =>
    match trades.find? fun t => t.1.orderId = o.orderId with
    | none => some o
    | some t => if o.remainingQty = t.2 then none else some (o.filledBy t.2)

/-! ### The walk of the matching loop -/

section
variable {d : BookSide} {u : UInt64} {limit rest : UInt32} {q : List OrderInfo}

/-- The trades of the walk are those of the reference match. -/
theorem greedy_trades_eq (hq : Queue.Sorted d q) :
    (greedy d u limit rest q).trades
      = fillEach rest (q.filter fun o => ¬ Skips u o ∧ ¬ d.Better limit o.price) := by
  induction q generalizing rest with
  | nil => simp [fillEach]
  | cons o q ih =>
      have hq' : Queue.Sorted d q := (List.pairwise_cons.mp hq).2
      by_cases hr : rest = 0
      · subst hr
        rw [greedy_zero]
        cases (o :: q).filter fun o => ¬ Skips u o ∧ ¬ d.Better limit o.price <;> simp [fillEach]
      · by_cases hs : Skips u o
        · rw [greedy_cons_of_skips hs, List.filter_cons_of_neg (by simp [hs])]
          exact ih hq'
        · by_cases hb : d.Better limit o.price
          · rw [greedy_cons_of_beyond hs hb, filter_cons_of_beyond hq hb]
            rfl
          · rw [greedy_cons_of_trade hr hs hb, List.filter_cons_of_pos (by simp [hs, hb]),
              fillEach, if_neg hr]
            exact congrArg _ (ih hq')

/-- Trades with other orders leave an order alone. -/
theorem afterTrades_cons_of_ne {trades : List (OrderInfo × UInt32)} {o : OrderInfo}
    (h : ∀ t ∈ trades, t.1.orderId ≠ o.orderId) (q : List OrderInfo) :
    afterTrades trades (o :: q) = o :: afterTrades trades q := by
  have hnone : trades.find? (fun t => t.1.orderId = o.orderId) = none :=
    List.find?_eq_none.mpr fun t ht => by simpa using h t ht
  simp only [afterTrades, List.filterMap_cons, hnone]

/-- A trade with an order in front does nothing to the others. -/
theorem afterTrades_cons_trades {trades : List (OrderInfo × UInt32)} {t : OrderInfo × UInt32}
    (h : ∀ o ∈ q, t.1.orderId ≠ o.orderId) :
    afterTrades (t :: trades) q = afterTrades trades q := by
  unfold afterTrades
  refine List.filterMap_congr fun o ho => ?_
  rw [List.find?_cons_of_neg (by simpa using h o ho)]

/-- The queue after the walk is the one after the reference match. -/
theorem greedy_queue_eq (hnd : (q.map OrderInfo.orderId).Nodup) :
    (greedy d u limit rest q).queue = afterTrades (greedy d u limit rest q).trades q := by
  have hself : ∀ q : List OrderInfo, afterTrades [] q = q := by
    intro q
    simp [afterTrades]
  induction q generalizing rest with
  | nil => rfl
  | cons o q ih =>
      obtain ⟨hout, hnd'⟩ := List.nodup_cons.mp hnd
      have hne : ∀ y ∈ q, o.orderId ≠ y.orderId :=
        fun y hy e => hout (List.mem_map.mpr ⟨y, hy, e.symm⟩)
      by_cases hr : rest = 0
      · subst hr
        rw [greedy_zero, hself]
      · by_cases hs : Skips u o
        · rw [greedy_cons_of_skips hs, afterTrades_cons_of_ne, ih hnd']
          exact fun t ht => (hne t.1 (mem_of_mem_trades ht).1).symm
        · by_cases hb : d.Better limit o.price
          · rw [greedy_cons_of_beyond hs hb, hself]
          · rw [greedy_cons_of_trade hr hs hb]
            have htail : afterTrades ((o, min rest o.remainingQty)
                :: (greedy d u limit (rest - min rest o.remainingQty) q).trades) (o :: q)
                = if o.remainingQty = min rest o.remainingQty
                  then (greedy d u limit (rest - min rest o.remainingQty) q).queue
                  else o.filledBy (min rest o.remainingQty)
                    :: (greedy d u limit (rest - min rest o.remainingQty) q).queue := by
              rw [ih hnd', ← afterTrades_cons_trades (t := (o, min rest o.remainingQty)) hne]
              unfold afterTrades
              rw [List.filterMap_cons, List.find?_cons_of_pos (by simp)]
              by_cases hu : o.remainingQty = min rest o.remainingQty
              · rw [if_pos hu]
                simp only [if_pos hu]
              · rw [if_neg hu]
                simp only [if_neg hu]
            exact htail.symm

end

/-- Entering a queue that has its best prices first: in front stands what is served
first, the same price included, and behind stands what has a worse price. -/
theorem Queue.exists_insert_split {d : BookSide} {q : List OrderInfo} (hq : Queue.Sorted d q)
    (o : OrderInfo) :
    ∃ l r, q = l ++ r ∧ Queue.insert d o q = l ++ o :: r ∧
      (∀ y ∈ l, ¬ d.Better o.price y.price) ∧ ∀ y ∈ r, d.Better o.price y.price := by
  induction q with
  | nil => exact ⟨[], [], rfl, rfl, by simp, by simp⟩
  | cons x q ih =>
      obtain ⟨hbest, hq'⟩ := List.pairwise_cons.mp hq
      by_cases hb : d.Better o.price x.price
      · refine ⟨[], x :: q, rfl, by simp [Queue.insert, hb], by simp, fun y hy => ?_⟩
        rcases List.mem_cons.mp hy with rfl | hy
        · exact hb
        · exact better_of_not_better hb (hbest y hy)
      · obtain ⟨l, r, rfl, hins, hl, hr⟩ := ih hq'
        refine ⟨x :: l, r, rfl, by rw [Queue.insert, if_neg hb, hins]; rfl, fun y hy => ?_, hr⟩
        rcases List.mem_cons.mp hy with rfl | hy
        · exact hb
        · exact hl y hy

namespace MatchingEngine

/-! ### The queues of an engine -/

/-- The slots of a side stand best price first and, within a price, in the order of their
levels. -/
theorem slots_priority {e : MatchingEngine} (h : e.Inv) (π : Place) :
    (e.slots π).Pairwise fun i j =>
      π.2.Better (e.pool.storage i).price (e.pool.storage j).price ∨
        ((e.pool.storage i).price = (e.pool.storage j).price ∧
          (e.Increasing → (e.pool.storage i).sequence < (e.pool.storage j).sequence)) := by
  have hlevels := h.levels π
  unfold slots placeSlots entrySlots
  rw [List.pairwise_flatMap]
  constructor
  · intro ent hent
    have hl : e.level π ent.1 = some ent.2 := SortedMap.mem_entries_iff.mp hent
    have horders := (hlevels ent hent).orders
    by_cases hinc : e.Increasing
    · refine (hinc π _ _ hl).imp_of_mem fun {i j} hi hj hij => Or.inr ⟨?_, fun _ => hij⟩
      rw [(horders i hi).2, (horders j hj).2]
    · refine List.pairwise_of_forall_mem_list fun i hi j hj =>
        Or.inr ⟨?_, fun hinc' => absurd hinc' hinc⟩
      rw [(horders i hi).2, (horders j hj).2]
  · refine ((e.levelsOf π.1).levels π.2).sorted.imp_of_mem ?_
    intro a b ha hb hab i hi j hj
    left
    rw [((hlevels a ha).orders i hi).2, ((hlevels b hb).orders j hj).2]
    exact hab

/-- An order that finds a free slot enters its queue, whatever its reference is. -/
theorem restOrder_queues {e : MatchingEngine} (h : e.Inv) (locate : UInt64) {order : Order}
    (out : List BinaryResponse) (hside : order.side ≠ .invalid) (hfree : e.pool.freeCount ≠ 0) :
    ∃ e', e.restOrder locate order out = some (e', out ++ [.ok order.orderId]) ∧
      BooksRep e'.levelsOf e'.pool ∧
      e'.abs.queues = Function.update e.abs.queues (locate, order.side.bookSide)
        (Queue.insert order.side.bookSide order.toOrderInfo
          (e.abs.queues (locate, order.side.bookSide))) := by
  obtain ⟨lv, pool', idx, l, r, hadd, hent⟩ :=
    h.toBooksRep.addOrder locate hside hfree e.index
  obtain ⟨⟨kept, index'⟩, hins⟩ := OrderMap.exists_insert h.wf order.orderId idx
  rw [hins] at hadd
  have hlev := e.levelsOf_putBook locate ⟨lv, pool', index'⟩
  rw [← hlev] at hent
  refine ⟨(e.putBook locate ⟨lv, pool', index'⟩).countPool, ?_, hent.rep,
    Rep.queues_of_entry hent⟩
  rw [restOrder, show (e.book locate).addOrder order
    = some (true, ⟨lv, pool', index'⟩) from hadd]
  rfl

/-! ### The result -/

/-- What the walk looks at, in the words of the reference match. -/
theorem eligible_iff {tif : OrderTif} {side : Side} {price : UInt32} {userId : UInt64}
    (hu : userId ≠ 0) (hside : side ≠ .invalid) (o : OrderInfo) :
    (¬ Skips userId o ∧ ¬ side.bookSide.opposite.Better (limitPrice tif side price) o.price) ↔
      (o.userId ≠ userId ∧ Accepts tif side price o.price) := by
  have hskip : ¬ Skips userId o ↔ o.userId ≠ userId := by simp [Skips, hu]
  have hmax : o.price ≤ uint32Max := by
    rw [UInt32.le_iff_toNat_le]
    have := o.price.toNat_lt
    simp only [uint32Max, UInt32.reduceToNat]
    omega
  have hzero : 0 ≤ o.price := by simp [UInt32.le_iff_toNat_le]
  rw [hskip]
  refine and_congr_right fun _ => ?_
  unfold Accepts limitPrice isMarket
  cases side with
  | invalid => exact absurd rfl hside
  | buy =>
      by_cases hm : ((tif == .ioc || tif == .fok) && price == 0) = true
      · rw [if_pos hm]
        simp only [Bool.and_eq_true, Bool.or_eq_true, beq_iff_eq] at hm
        simp [Side.bookSide, BookSide.opposite, BookSide.Better, hmax, hm]
      · rw [if_neg hm]
        simp only [Bool.and_eq_true, Bool.or_eq_true, beq_iff_eq] at hm
        simp [Side.bookSide, BookSide.opposite, BookSide.Better, hm]
  | sell | other =>
      by_cases hm : ((tif == .ioc || tif == .fok) && price == 0) = true
      · rw [if_pos hm]
        simp only [Bool.and_eq_true, Bool.or_eq_true, beq_iff_eq] at hm
        simp [Side.bookSide, BookSide.opposite, BookSide.Better, hzero, hm]
      · rw [if_neg hm]
        simp only [Bool.and_eq_true, Bool.or_eq_true, beq_iff_eq] at hm
        simp [Side.bookSide, BookSide.opposite, BookSide.Better, hm]

/-- The trades of the reference match for an order of `processAdd`. -/
def referenceTrades (e : MatchingEngine) (locate : UInt64) (side : Side) (price quantity : UInt32)
    (userId : UInt64) (tif : OrderTif) : List (OrderInfo × UInt32) :=
  fillEach quantity ((e.abs.queues (locate, side.bookSide.opposite)).filter fun o =>
    o.userId ≠ userId ∧ Accepts tif side price o.price)

/-- The quantity of a list of trades. -/
def quantityOf (trades : List (OrderInfo × UInt32)) : Nat :=
  (trades.map fun t => t.2.toNat).sum

section
variable {e : MatchingEngine} {locate ref : UInt64} {side : Side} {price quantity : UInt32}
variable {userId : UInt64} {tif : OrderTif}

/-- What an order that passes the checks of `processAdd` is matched with. -/
theorem fills_eq_reference (h : e.Inv)
    (hok : Exchange.refusal locate ref side price quantity userId tif = none) :
    let r := e.abs.fills locate
      (Exchange.incoming ref side (limitPrice tif side price) quantity userId)
    let trades := e.referenceTrades locate side price quantity userId tif
    r.trades = trades ∧
      r.queue = afterTrades trades (e.abs.queues (locate, side.bookSide.opposite)) ∧
      r.rest.toNat + quantityOf trades = quantity.toNat := by
  have hproper := h.proper
  obtain ⟨-, hside, -, -, hu, -⟩ := Exchange.refusal_eq_none_iff.mp hok
  have htrades : (e.abs.fills locate (Exchange.incoming ref side (limitPrice tif side price)
      quantity userId)).trades = e.referenceTrades locate side price quantity userId tif := by
    refine (greedy_trades_eq (hproper.sorted (locate, side.bookSide.opposite))).trans ?_
    unfold referenceTrades
    congr 1
    refine List.filter_congr fun o _ => ?_
    rw [decide_eq_decide]
    exact eligible_iff hu hside o
  refine ⟨htrades, ?_, ?_⟩
  · rw [← htrades]
    exact greedy_queue_eq (hproper.nodup (locate, side.bookSide.opposite))
  · rw [← htrades]
    exact greedy_rest_toNat _

/-- The remainder of a DAY order that traded `trades` stands last of its price: `l` is
served before it and `r`, with worse prices, after it. -/
def RestsBehind (q q' : List OrderInfo) (ref : UInt64) (side : Side) (price quantity : UInt32)
    (userId : UInt64) (trades : List (OrderInfo × UInt32)) : Prop :=
  ∃ l o r, q = l ++ r ∧ q' = l ++ o :: r ∧
    (∀ y ∈ l, ¬ side.bookSide.Better price y.price) ∧
    (∀ y ∈ r, side.bookSide.Better price y.price) ∧
    o.orderId = ref ∧ o.userId = userId ∧ o.side = side ∧ o.price = price ∧
    o.originalQty = quantity ∧ o.remainingQty.toNat + quantityOf trades = quantity.toNat ∧
    o.filledQty.toNat = quantityOf trades ∧
    o.status = if trades = [] then .opened else .partiallyFilled

/-- The engine `e'` after `processAdd` in `e`, and what follows the trades in its answer,
against the reference match. -/
structure FollowsReference (e e' : MatchingEngine) (locate ref : UInt64) (side : Side)
    (price quantity : UInt32) (userId : UInt64) (tif : OrderTif)
    (tail : List BinaryResponse) : Prop where
  /-- The books are well formed again. -/
  books : BooksRep e'.levelsOf e'.pool
  /-- No further trade is reported. -/
  noTrade : ∀ t, .trade t ∉ tail
  /-- The other side is what the reference match leaves. -/
  other : e'.abs.queues (locate, side.bookSide.opposite)
    = afterTrades (e.referenceTrades locate side price quantity userId tif)
        (e.abs.queues (locate, side.bookSide.opposite))
  /-- The orders of all other books are untouched. -/
  frame : ∀ π : Place, π.1 ≠ locate → e'.abs.queues π = e.abs.queues π
  /-- On its own side the remainder of a DAY order rests last of its price. Nothing rests
  if nothing is left, if the order is not a DAY order, or if the pool has no free slot. -/
  own : (tif = .day ∧ tail = [.ok ref] ∧
      quantityOf (e.referenceTrades locate side price quantity userId tif) ≠ quantity.toNat ∧
      RestsBehind (e.abs.queues (locate, side.bookSide)) (e'.abs.queues (locate, side.bookSide))
        ref side price quantity userId
        (e.referenceTrades locate side price quantity userId tif)) ∨
    (e'.abs.queues (locate, side.bookSide) = e.abs.queues (locate, side.bookSide) ∧
      (quantityOf (e.referenceTrades locate side price quantity userId tif) = quantity.toNat ∨
        tif ≠ .day ∨ (tail = [.error .poolFull] ∧ e'.pool.freeCount = 0)))

/-- Two sides of a book are different places. -/
theorem opposite_ne (d : BookSide) : d ≠ d.opposite := by
  cases d <;> simp [BookSide.opposite]

/-- Price-time priority. An order that passes the checks of `processAdd`, for FOK the one of
`canFullFill` included, is matched and the call returns; the trade frames are those of the
reference match, in its order, and the books afterwards are what it leaves. The queue the
reference match takes its orders from has the best price first and within a price the
order of arrival. -/
theorem price_time_priority (h : e.Inv)
    (hok : Exchange.refusal locate ref side price quantity userId tif = none)
    (hfok : tif = .fok →
      canFullFill (e.book locate) side (limitPrice tif side price) quantity = some true) :
    (∃ e' tail, e.processAdd locate ref side price quantity userId tif
        = some (e', (e.referenceTrades locate side price quantity userId tif).map (fun t =>
            tradeFrame locate side.bookSide.opposite t.1 t.2) ++ tail) ∧
      FollowsReference e e' locate ref side price quantity userId tif tail) ∧
    (e.slots (locate, side.bookSide.opposite)).Pairwise fun i j =>
      side.bookSide.opposite.Better (e.pool.storage i).price (e.pool.storage j).price ∨
        ((e.pool.storage i).price = (e.pool.storage j).price ∧
          (e.Increasing → (e.pool.storage i).sequence < (e.pool.storage j).sequence)) := by
  refine ⟨?_, slots_priority h (locate, side.bookSide.opposite)⟩
  obtain ⟨htrades, hqueue, hrest⟩ := fills_eq_reference h hok
  obtain ⟨order, -, e₁, horder, -, -, hinv₁, habs₁, -, hproc⟩ := h.processAdd_passes ⟨hok, hfok⟩
  have hinfo : order.toOrderInfo
      = Exchange.incoming ref side (limitPrice tif side price) quantity userId := by
    rw [horder]
    rfl
  obtain ⟨-, hside, -⟩ := Exchange.refusal_eq_none_iff.mp hok
  obtain ⟨r, hr⟩ : ∃ r, r = e.abs.fills locate
    (Exchange.incoming ref side (limitPrice tif side price) quantity userId) := ⟨_, rfl⟩
  obtain ⟨trades, ht⟩ : ∃ trades,
    trades = e.referenceTrades locate side price quantity userId tif := ⟨_, rfl⟩
  simp only [← hr, ← ht] at htrades hqueue hrest
  have hq₁ : e₁.abs.queues = Function.update e.abs.queues (locate, side.bookSide.opposite)
      (afterTrades trades (e.abs.queues (locate, side.bookSide.opposite))) := by
    rw [habs₁, ← hqueue, hr, hinfo]
    rfl
  have hframes : e.abs.tradeFrames locate order.toOrderInfo
      = trades.map fun t => tradeFrame locate side.bookSide.opposite t.1 t.2 := by
    rw [Exchange.tradeFrames, hinfo, ← hr, Fills.frames, htrades]
    rfl
  rw [← ht, ← hframes, hproc]
  change ∃ e' tail, e₁.finishAdd locate _ quantity tif (e.abs.tradeFrames locate _) = _ ∧ _
  -- Nothing rests: the match is all that happened.
  have hstay : ∀ e' tail, Same e₁ e' → (∀ t, .trade t ∉ tail) →
      (quantityOf trades = quantity.toNat ∨ tif ≠ .day ∨
        (tail = [.error .poolFull] ∧ e'.pool.freeCount = 0)) →
      FollowsReference e e' locate ref side price quantity userId tif tail := by
    intro e' tail hsame hno hwhy
    have hq : e'.abs.queues = _ := (congrArg Exchange.queues hsame.abs).trans hq₁
    refine ⟨(hsame.inv hinv₁).toBooksRep, hno, ?_, fun π hπ => ?_, Or.inr ⟨?_, ?_⟩⟩
    · rw [hq, Function.update_self, ht]
    · rw [hq, Function.update_of_ne]
      rintro rfl
      exact hπ rfl
    · rw [hq, Function.update_of_ne]
      simpa using opposite_ne side.bookSide
    · rw [← ht]
      exact hwhy
  -- An order that may not rest.
  have hnow : tif ≠ .day → ∀ (needed : UInt32) (code : ErrorCode),
      ((tif = .ioc ∧ needed = 1 ∧ code = .mktNoLiquidity) ∨
        (tif = .fok ∧ needed = quantity ∧ code = .fokNoFullFill)) →
      ∃ e' tail, e₁.finishAdd locate (takerOf e.abs locate order) quantity tif
          (e.abs.tradeFrames locate order.toOrderInfo)
          = some (e', e.abs.tradeFrames locate order.toOrderInfo ++ tail) ∧
        FollowsReference e e' locate ref side price quantity userId tif tail := by
    intro htif needed code hcode
    obtain ⟨e', hsame, hfin⟩ := finishAdd_now e₁ e.abs locate order quantity needed hcode
    obtain ⟨tail, htail, hno⟩ := e.abs.submitNow_tail locate order.toOrderInfo needed code
    exact ⟨e', tail, by rw [← htail]; exact hfin, hstay e' tail hsame hno (Or.inr (Or.inl htif))⟩
  cases tif with
  | ioc => exact hnow (by decide) _ _ (Or.inl ⟨rfl, rfl, rfl⟩)
  | fok => exact hnow (by decide) _ _ (Or.inr ⟨rfl, rfl, rfl⟩)
  | day =>
      have hquantity : quantity.toNat ≠ 0 := by
        intro h0
        exact (Exchange.refusal_eq_none_iff.mp hok).2.2.2.1 (UInt32.toNat_inj.mp h0)
      -- The taker is filled exactly when the trades use it up.
      have htaker : (takerOf e.abs locate order).toOrderInfo
          = r.taker (Exchange.incoming ref side price quantity userId) := by
        show (e.abs.fills locate order.toOrderInfo).taker order.toOrderInfo = _
        rw [hinfo, ← hr]
        rfl
      have hused : (takerOf e.abs locate order).status = .filled ↔
          quantityOf trades = quantity.toNat := by
        rw [htaker, taker_filled_iff r rfl, htrades, ← UInt32.toNat_inj, UInt32.toNat_zero]
        refine ⟨fun hz => by have := hz.2; omega, fun hq => ⟨?_, by omega⟩⟩
        rintro rfl
        exact hquantity hq.symm
      by_cases hf : (takerOf e.abs locate order).status = .filled
      · refine ⟨e₁.countPool, [.filled (takerOf e.abs locate order).orderId], ?_,
          hstay _ _ (Same.count _ _) (by simp) (Or.inl (hused.mp hf))⟩
        rw [finishAdd, if_pos hf]
      · have hopen : (takerOf e.abs locate order).status = .opened ∨
            (takerOf e.abs locate order).status = .partiallyFilled :=
          taker_status _ (by rw [hinfo]; rfl) hf
        rw [finishAdd, if_neg hf, if_neg (by decide), if_neg (by decide), if_pos hopen]
        have hown : (takerOf e.abs locate order).side = side := by rw [htaker]; rfl
        by_cases hfree : e₁.pool.freeCount = 0
        · obtain ⟨e', hres, hsame⟩ := restOrder_refused hinv₁ locate
            (e.abs.tradeFrames locate order.toOrderInfo)
            (Or.inr hfree : (takerOf e.abs locate order).side = .invalid ∨ _)
          exact ⟨e', _, hres, hstay e' _ hsame (by simp)
            (Or.inr (Or.inr ⟨rfl, by rw [hsame.pool]; exact hfree⟩))⟩
        · obtain ⟨e', hres, hbooks, hq'⟩ := restOrder_queues hinv₁ locate
            (e.abs.tradeFrames locate order.toOrderInfo)
            (by rw [hown]; exact hside : (takerOf e.abs locate order).side ≠ .invalid) hfree
          rw [hown] at hq'
          have hownq : e₁.abs.queues (locate, side.bookSide)
              = e.abs.queues (locate, side.bookSide) := by
            rw [hq₁, Function.update_of_ne]
            simpa using opposite_ne side.bookSide
          obtain ⟨l, r', hsplit, hins, hl, hr'⟩ := Queue.exists_insert_split
            (h.proper.sorted (locate, side.bookSide)) (takerOf e.abs locate order).toOrderInfo
          have hprice : (takerOf e.abs locate order).price = price := by rw [htaker]; rfl
          rw [hprice] at hl hr'
          refine ⟨e', [.ok (takerOf e.abs locate order).orderId], hres, hbooks, by simp, ?_,
            fun π hπ => ?_, Or.inl ⟨rfl, by rw [htaker]; rfl, fun hq => hf (hused.mpr (ht ▸ hq)),
              l, (takerOf e.abs locate order).toOrderInfo, r', hsplit, ?_, hl, hr',
              by rw [htaker]; rfl, by rw [htaker]; rfl, hown, hprice, by rw [htaker]; rfl,
              ?_, ?_, ?_⟩⟩
          · rw [hq', Function.update_of_ne (by simpa using (opposite_ne side.bookSide).symm), hq₁,
              Function.update_self, ht]
          · rw [hq', Function.update_of_ne (by rintro rfl; exact hπ rfl), hq₁,
              Function.update_of_ne (by rintro rfl; exact hπ rfl)]
          · rw [hq', Function.update_self, hownq, hins]
          · rw [htaker, ← ht]
            exact hrest
          · rw [htaker, ← ht]
            have hle : r.rest ≤ quantity := by
              rw [UInt32.le_iff_toNat_le]
              omega
            show (0 + (quantity - r.rest)).toNat = _
            rw [UInt32.zero_add, UInt32.toNat_sub_of_le _ _ hle]
            omega
          · have hz : r.rest ≠ 0 := fun hz =>
              hf (hused.mpr (by rw [hz] at hrest; simpa using hrest))
            rw [htaker, ← ht, Fills.taker, htrades, if_neg hz]
            rfl

end

/-- A buy of 3 meets a resting sell of 5. -/
theorem price_time_priority_trade : ∃ e e' tail,
    e.processAdd 0 2 .buy 100 3 2 .day
      = some (e', .trade ⟨0, 1, .sell, 100, 3⟩ :: tail) ∧
    FollowsReference e e' 0 2 .buy 100 3 2 .day tail := by
  obtain ⟨e₀, h₀⟩ : ∃ e₀, ofCapacity 2 none none none = some e₀ := ⟨_, rfl⟩
  have habs₀ := abs_ofCapacity h₀
  have hp : Admissible [] e₀ (.add 0 1 .sell 100 5 1 .day) :=
    ⟨by rw [habs₀]; exact fun π o ho => by simp [Exchange.empty] at ho, trivial⟩
  obtain ⟨keep, e, out, -, hinv, habs⟩ := (Inv.start h₀).exec hp
  have htrades : e.referenceTrades 0 .buy 100 3 2 .day
      = [(⟨1, 1, .sell, 100, 5, 5, 0, .opened⟩, 3)] := by
    rw [referenceTrades, show e.abs = _ from congrArg Prod.fst habs, habs₀]
    cases keep <;> decide
  have hok : Exchange.refusal 0 2 .buy 100 3 2 .day = none := by decide
  obtain ⟨⟨e', tail, hres, hfollow⟩, -⟩ :=
    price_time_priority hinv hok fun ht => absurd ht (by decide)
  rw [htrades] at hres
  exact ⟨e, e', tail, hres, hfollow⟩

end MatchingEngine

end NebulaX
