import Mathlib.Algebra.Order.BigOperators.Group.List
import Mathlib.Algebra.Order.Ring.Nat
import NebulaX.Proofs.FillOrKill

/-!
# `NebulaX.Proofs.Atomicity`: an error leaves nothing behind

`addOrder` runs after the matching loop has changed the book, so `POOL_FULL` could come behind
trades. It does not: a taker with something left has used up every order it traded with, each of
these orders has given its slot back, and so there is a slot for the rest (`idle_of_full`).
-/

set_option autoImplicit false

namespace NebulaX

open NebulaX.Lib

section
variable {d : BookSide} {u : UInt64} {limit rest : UInt32} {q : List OrderInfo}

/-- A taker that got nothing from orders with something left has traded with nobody. -/
theorem trades_nil_of_rest_eq (hpos : ∀ o ∈ q, o.remainingQty ≠ 0)
    (h : (greedy d u limit rest q).rest = rest) : (greedy d u limit rest q).trades = [] := by
  have hsum := @greedy_rest_toNat d u limit rest q
  rw [h] at hsum
  rw [List.eq_nil_iff_forall_not_mem]
  intro t ht
  have hzero : t.2.toNat = 0 := by
    have hle := List.le_sum_of_mem (List.mem_map_of_mem (f := fun t : OrderInfo × UInt32 =>
      t.2.toNat) ht)
    omega
  exact (trade_quantity ht).2 (hpos _ (mem_of_mem_trades ht).1) (UInt32.toNat_inj.mp hzero)

end

theorem not_mem_frames (r : Fills) (locate : UInt64) (d : BookSide) (code : ErrorCode) :
    BinaryResponse.error code ∉ r.frames locate d := by
  intro h
  obtain ⟨t, -, ht⟩ := List.mem_map.mp h
  cases ht

namespace MatchingEngine

variable {e : MatchingEngine} {locate : UInt64}

/-- An order that finds a slot rests in it and is answered with `RSP_OK`. -/
theorem Inv.restOrder_ok (h : e.Inv) {order : Order} {out : List BinaryResponse}
    (hside : order.side ≠ .invalid) (hfree : e.pool.freeCount ≠ 0)
    {r : MatchingEngine × List BinaryResponse} (hr : e.restOrder locate order out = some r) :
    r.2 = out ++ [.ok order.orderId] ∧
      ∃ i ∈ r.1.slots (locate, order.side.bookSide), r.1.pool.info i = order.toOrderInfo := by
  obtain ⟨lv, pool', idx, left, right, hadd, hent⟩ :=
    h.toBooksRep.addOrder locate hside hfree e.index
  rw [restOrder, show (e.book locate).addOrder order = _ from hadd] at hr
  cases hins : e.index.insert order.orderId idx with
  | none => simp [hins] at hr
  | some ri =>
      simp only [hins, Option.map_some, Option.bind_eq_bind, Option.bind_some, if_true, pure,
        Option.some.injEq] at hr
      have hslots : r.1.slots (locate, order.side.bookSide) = left ++ idx :: right := by
        rw [← hr]
        show placeSlots (e.putBook locate _).levelsOf pool'.storage _ = _
        rw [levelsOf_putBook, hent.after, Function.update_self]
      refine ⟨by rw [← hr], idx, by simp [hslots], ?_⟩
      rw [← hr]
      exact congrArg Prod.fst hent.new

/-- `restOrder` returns. -/
theorem Inv.exists_restOrder (h : e.Inv) (locate : UInt64) (order : Order)
    (out : List BinaryResponse) : ∃ r, e.restOrder locate order out = some r := by
  by_cases hfull : order.side = .invalid ∨ e.pool.freeCount = 0
  · obtain ⟨e', heq, -⟩ := restOrder_refused h locate out hfull
    exact ⟨_, heq⟩
  · rw [not_or] at hfull
    obtain ⟨lv, pool', idx, -, -, hadd, -⟩ :=
      h.toBooksRep.addOrder locate hfull.1 hfull.2 e.index
    obtain ⟨ri, hins⟩ := OrderMap.exists_insert h.wf order.orderId idx
    rw [restOrder, show (e.book locate).addOrder order = _ from hadd, hins]
    exact ⟨_, rfl⟩

/-- The tail of `processAdd` returns. -/
theorem Inv.exists_finishAdd (h : e.Inv) (order : Order) (quantity : UInt32) (tif : OrderTif)
    (out : List BinaryResponse) : ∃ r, e.finishAdd locate order quantity tif out = some r := by
  unfold finishAdd
  split_ifs
  all_goals first | exact ⟨_, rfl⟩ | exact h.exists_restOrder locate order out

/-- When the match of an order that is not used up leaves the pool full, nobody was traded
with. -/
theorem idle_of_full {order : Order} {e' : MatchingEngine} (hopen : order.status = .opened)
    (hs : (takerOf e.abs locate order).status ≠ .filled)
    (habs : e'.abs = e.abs.matched locate order.toOrderInfo) (hfull : e'.pool.freeCount = 0) :
    (e.abs.fills locate order.toOrderInfo).trades = [] := by
  by_contra htrades
  have hfree : (e.abs.matched locate order.toOrderInfo).free ≠ 0 :=
    Exchange.free_ne_zero_of_traded hopen hs htrades
  rw [← habs] at hfree
  exact hfree hfull

/-- The tail of `processAdd` behind the matching loop, for an order that is not fill-or-kill. -/
theorem finishAdd_error {order : Order} {quantity : UInt32} {tif : OrderTif}
    (hnz : ∀ π, ∀ o ∈ e.abs.queues π, o.remainingQty ≠ 0) (htif : tif ≠ .fok)
    (hopen : order.status = .opened) (hzero : order.filledQty = 0)
    (hside : order.side ≠ .invalid) {e' : MatchingEngine}
    (hinv : e'.Inv) (habs : e'.abs = e.abs.matched locate order.toOrderInfo)
    {r : MatchingEngine × List BinaryResponse}
    (hr : e'.finishAdd locate (takerOf e.abs locate order) quantity tif
      ((e.abs.fills locate order.toOrderInfo).frames locate order.side.bookSide.opposite) = some r)
    {code : ErrorCode} (hcode : .error code ∈ r.2) :
    (e.abs.fills locate order.toOrderInfo).trades = [] ∧ r.2 = [.error code] ∧
      SameBooks e' r.1 := by
  have hno := not_mem_frames (e.abs.fills locate order.toOrderInfo) locate
    order.side.bookSide.opposite
  -- an error behind the frames of no trade is the only answer
  have honly {code' : ErrorCode} (hout : r.2 = (e.abs.fills locate order.toOrderInfo).frames locate
      order.side.bookSide.opposite ++ [.error code'])
      (htrades : (e.abs.fills locate order.toOrderInfo).trades = []) : r.2 = [.error code] := by
    rw [Fills.frames, htrades, List.map_nil, List.nil_append] at hout
    rw [hout, List.mem_singleton] at hcode
    rw [hout, hcode]
  by_cases hs : (takerOf e.abs locate order).status = .filled
  · rw [finishAdd, if_pos hs, Option.some.injEq] at hr
    rw [← hr] at hcode
    simp [hno] at hcode
  rw [finishAdd, if_neg hs] at hr
  cases tif with
  | fok => exact absurd rfl htif
  | ioc =>
      rw [if_pos rfl] at hr
      split at hr
      · rename_i hnone
        have hrest : (e.abs.fills locate order.toOrderInfo).rest = order.remainingQty := by
          have hsub : order.filledQty + (order.remainingQty
            - (e.abs.fills locate order.toOrderInfo).rest) = 0 := hnone
          rw [hzero, UInt32.zero_add, sub_eq_zero] at hsub
          exact hsub.symm
        have htrades := trades_nil_of_rest_eq (hnz _) hrest
        rw [Option.some.injEq] at hr
        refine ⟨htrades, honly (by rw [← hr]) htrades, ?_⟩
        rw [← hr]
        exact (Same.count _ _).sameBooks
      · rw [Option.some.injEq] at hr
        rw [← hr] at hcode
        exact absurd hcode (hno code)
  | day =>
      have hrests : (takerOf e.abs locate order).status = .opened ∨
          (takerOf e.abs locate order).status = .partiallyFilled := taker_status _ hopen hs
      rw [if_neg (by decide), if_neg (by decide), if_pos hrests] at hr
      by_cases hfull : e'.pool.freeCount = 0
      · have htrades := idle_of_full hopen hs habs hfull
        obtain ⟨e'', heq, hsame⟩ := @restOrder_refused e' hinv locate (takerOf e.abs locate order)
          ((e.abs.fills locate order.toOrderInfo).frames locate order.side.bookSide.opposite)
          (Or.inr hfull)
        rw [heq, Option.some.injEq] at hr
        refine ⟨htrades, honly (by rw [← hr]) htrades, ?_⟩
        rw [← hr]
        exact hsame.sameBooks
      · rw [(hinv.restOrder_ok (show (takerOf e.abs locate order).side ≠ .invalid from hside)
          hfull hr).1] at hcode
        simp [hno] at hcode

/-- `processAdd` of an order that is not fill-or-kill. -/
theorem Inv.processAdd_error (h : e.Inv) (hnz : ∀ π, ∀ o ∈ e.abs.queues π, o.remainingQty ≠ 0)
    {ref : UInt64} {side : Side} {price quantity : UInt32} {userId : UInt64} {tif : OrderTif}
    (htif : tif ≠ .fok) :
    ∃ r, e.processAdd locate ref side price quantity userId tif = some r ∧
      ∀ code, .error code ∈ r.2 → r.2 = [.error code] ∧ SameBooks e r.1 := by
  obtain ⟨code', e', -, heq, hs⟩ | ⟨hvalid, -⟩ :=
    processAdd_eq e locate ref side price quantity userId tif
  · refine ⟨_, heq, fun code hcode => ?_⟩
    rw [List.mem_singleton] at hcode
    exact ⟨by rw [hcode], hs.sameBooks⟩
  obtain ⟨-, hside, -, hpos, -⟩ := Exchange.refusal_eq_none_iff.mp hvalid
  obtain ⟨order, e₂, e₃, horder, hs₂, hm, hinv₃, habs₃, -, heq⟩ :=
    h.processAdd_passes ⟨hvalid, fun hfok => absurd hfok htif⟩
  have hinfo : order.toOrderInfo
      = Exchange.incoming ref side (limitPrice tif side price) quantity userId := by
    rw [horder]
    rfl
  have hun₂ : SameBooks e e₂ := ⟨hs₂.levelsOf, hs₂.pool, hs₂.index⟩
  have habs₂ : e₂.abs = e.abs := hs₂.abs
  obtain ⟨r, hr⟩ := hinv₃.exists_finishAdd (takerOf e.abs locate order) quantity tif
    ((e.abs.fills locate order.toOrderInfo).frames locate order.side.bookSide.opposite)
  refine ⟨r, heq.trans hr, fun code hcode => ?_⟩
  obtain ⟨htrades, hout, hun⟩ := finishAdd_error hnz htif (congrArg OrderInfo.status hinfo)
    (congrArg OrderInfo.filledQty hinfo) ((congrArg OrderInfo.side hinfo).trans_ne hside) hinv₃
    habs₃ hr hcode
  refine ⟨hout, (hun₂.trans ((hun₂.inv h).matchSide_idle ?_ hm)).trans hun⟩
  rw [habs₂]
  exact idle_of_trades_nil (h.proper.sorted (locate, order.side.bookSide.opposite))
    ((congrArg OrderInfo.remainingQty hinfo).trans_ne hpos) htrades

/-- `processReplace` of an order that rests in that book, with the side it has. -/
theorem Inv.processReplace_not_full (h : e.Inv) {d : BookSide} {i : UInt32}
    (hi : i ∈ e.slots (locate, d)) (newRef : UInt64) (price quantity : UInt32) :
    ∃ r, e.processReplace locate (e.pool.storage i).orderId newRef (e.pool.storage i).side price
      quantity (e.pool.storage i).userId = some r ∧ .error .poolFull ∉ r.2 := by
  have hside : (e.pool.storage i).side ≠ .invalid := (h.restsOn hi).1
  obtain ⟨hl, j, d', hfind, huser, hj, -⟩ | ⟨-, hmiss⟩ :=
    owned_eq h (h.homed hi (e.pool.storage i).userId)
  · obtain ⟨e₂, hs, heq⟩ := exec_found (c := .replace locate (e.pool.storage i).orderId newRef
      (e.pool.storage i).side price quantity (e.pool.storage i).userId) rfl hl hfind huser
    obtain ⟨b, hrem, hinv, habs, -⟩ := (hs.inv h).removeOrder (hs.mem_slots hj)
    obtain ⟨order, horder⟩ : ∃ order, order = (e₂.putBook locate b).newOrder newRef
      (e.pool.storage i).side price quantity newRef := ⟨_, rfl⟩
    obtain ⟨e₃, hm, hinv₃, habs₃, -⟩ :=
      matchSide_spec (e := (e₂.putBook locate b).bumpSequence) hinv locate order
    -- the removed order has given its slot back
    have hfree : e₃.pool.freeCount ≠ 0 := by
      have hroom := congrArg Exchange.free habs₃
      change e₃.pool.freeCount = (e₂.putBook locate b).abs.free + _ at hroom
      rw [habs] at hroom
      change e₃.pool.freeCount = (e₂.abs.free + 1) + _ at hroom
      omega
    have hno := not_mem_frames ((e₂.putBook locate b).bumpSequence.abs.fills locate
      order.toOrderInfo) locate order.side.bookSide.opposite .poolFull
    rw [show e.processReplace _ _ _ _ _ _ _ = _ from heq, actOn, submitReplace, hrem]
    simp only [Option.bind_eq_bind, Option.bind_some, ← horder, hm, finishReplace]
    split_ifs
    · obtain ⟨r, hr⟩ := hinv₃.exists_restOrder locate
        (takerOf (e₂.putBook locate b).bumpSequence.abs locate order)
        (((e₂.putBook locate b).bumpSequence.abs.fills locate order.toOrderInfo).frames locate
          order.side.bookSide.opposite)
      refine ⟨r, hr, ?_⟩
      rw [(hinv₃.restOrder_ok (by rw [horder]; exact hside) hfree hr).1]
      simp [hno]
    · exact ⟨_, rfl, by simp [hno]⟩
    · exact ⟨_, rfl, hno⟩
  · obtain ⟨e', heq, -⟩ := exec_missing (c := .replace locate (e.pool.storage i).orderId newRef
      (e.pool.storage i).side price quantity (e.pool.storage i).userId) rfl hmiss
    exact ⟨_, heq, by simp⟩

/-- **Errors are atomic.** In a state that keeps the invariant and has no empty order, an error
answer to a day order or to an immediate-or-cancel order is the only answer, and nothing has
changed; and the replacement of a resting order is never refused for want of a slot. -/
theorem errors_atomic (h : e.Inv)
    (hpos : ∀ π, ∀ i ∈ e.slots π, 0 < (e.pool.storage i).remainingQty) :
    (∀ locate ref side price quantity userId tif, tif = .day ∨ tif = .ioc →
      ∃ r, e.processAdd locate ref side price quantity userId tif = some r ∧
        ∀ code, .error code ∈ r.2 → r.2 = [.error code] ∧ SameBooks e r.1) ∧
    ∀ locate d i, i ∈ e.slots (locate, d) → ∀ newRef price quantity,
      ∃ r, e.processReplace locate (e.pool.storage i).orderId newRef (e.pool.storage i).side
          price quantity (e.pool.storage i).userId = some r ∧ .error .poolFull ∉ r.2 := by
  refine ⟨?_, fun locate d i hi newRef price quantity =>
    h.processReplace_not_full hi newRef price quantity⟩
  intro locate ref side price quantity userId tif htif
  refine h.processAdd_error ?_ ?_
  · intro π o ho
    obtain ⟨i, hi, rfl⟩ := List.mem_map.mp ho
    exact UInt32.pos_iff_ne_zero.mp (hpos π i hi)
  · rcases htif with rfl | rfl <;> decide

/-- Both slots are taken: an order that meets nobody is refused alone, and a resting order can
still be replaced by one that trades. -/
theorem errors_atomic_full : ∃ e₀ e outs, ofCapacity 2 none none none = some e₀ ∧
    run exec e₀ [.add 0 1 .sell 100 5 1 .day, .add 0 2 .buy 90 5 2 .day] = some (e, outs) ∧
    e.pool.freeCount = 0 ∧
    (∃ r, e.processAdd 0 3 .buy 95 5 3 .day = some r ∧ r.2 = [.error .poolFull] ∧
      SameBooks e r.1) ∧
    ∃ r, e.processReplace 0 2 4 .buy 100 9 2 = some r ∧ .error .poolFull ∉ r.2 := by
  obtain ⟨e₀, h₀⟩ : ∃ e₀, ofCapacity 2 none none none = some e₀ := ⟨_, rfl⟩
  have hrun : ((ofCapacity 2 none none none).bind fun e₀ =>
      (run exec e₀ [.add 0 1 .sell 100 5 1 .day, .add 0 2 .buy 90 5 2 .day]).map fun r =>
        ([r.1.pool.capacity, r.1.pool.freeCount], r.1.slots (0, .bid),
          [r.1.pool.info 0, r.1.pool.info 1],
          (r.1.processAdd 0 3 .buy 95 5 3 .day).map Prod.snd)) = some ([2, 0], [1],
      [{ userId := 1, orderId := 1, side := .sell, price := 100, originalQty := 5
         remainingQty := 5 },
       { userId := 2, orderId := 2, side := .buy, price := 90, originalQty := 5
         remainingQty := 5 }], some [.error .poolFull]) := by decide +kernel
  rw [h₀, Option.bind_some, Option.map_eq_some_iff] at hrun
  obtain ⟨⟨e, outs⟩, hrun, hend⟩ := hrun
  simp only [Prod.mk.injEq, List.cons.injEq, and_true] at hend
  obtain ⟨⟨hcap, hfree⟩, hslots, ⟨hfirst, hsecond⟩, hout⟩ := hend
  have hinv := Inv.of_trace (Inv.start h₀) (trace_of_adds h₀ (by decide) (by decide) hrun)
  have hpos : ∀ π, ∀ i ∈ e.slots π, 0 < (e.pool.storage i).remainingQty := by
    intro π i hi
    obtain ⟨free, hpool⟩ := hinv.toBooksRep.slots
    have hlt := hpool.lt π i hi
    rw [hcap] at hlt
    obtain rfl | rfl : i = 0 ∨ i = 1 := by
      simp only [← UInt32.toNat_inj]
      change i.toNat = 0 ∨ i.toNat = 1
      omega
    · rw [show (e.pool.storage 0).remainingQty = 5 from congrArg OrderInfo.remainingQty hfirst]
      decide
    · rw [show (e.pool.storage 1).remainingQty = 5 from congrArg OrderInfo.remainingQty hsecond]
      decide
  obtain ⟨hadd, hreplace⟩ := errors_atomic hinv hpos
  refine ⟨e₀, e, outs, h₀, hrun, hfree, ?_, ?_⟩
  · obtain ⟨r, hr, honly⟩ := hadd 0 3 .buy 95 5 3 .day (Or.inl rfl)
    rw [hr, Option.map_some, Option.some.injEq] at hout
    exact ⟨r, hr, hout, (honly .poolFull (by simp [hout])).2⟩
  · obtain ⟨r, hr, hno⟩ := hreplace 0 .bid 1 (by simp [hslots]) 4 100 9
    rw [show (e.pool.storage 1).orderId = 2 from congrArg OrderInfo.orderId hsecond,
      show (e.pool.storage 1).side = .buy from congrArg OrderInfo.side hsecond,
      show (e.pool.storage 1).userId = 2 from congrArg OrderInfo.userId hsecond] at hr
    exact ⟨r, hr, hno⟩

end MatchingEngine

end NebulaX
