import NebulaX.Proofs.Atomicity
import NebulaX.Proofs.OuchFields

/-!
# `NebulaX.Proofs.OuchEnter`: what an `'A'` frame means

`handleEnter` looks for one error only, `FOK_NO_FULL_FILL` of a fill-or-kill order, and sends
`'A'` otherwise. An order the engine refuses for its fields, its book or a full pool is accepted
all the same. `accepted_means_accepted` says for which orders and books this does not happen.
-/

set_option autoImplicit false

namespace NebulaX

open NebulaX.Lib

/-- The frames of a match are frames of trades, with its quantities. -/
theorem Fills.exists_trades (r : Fills) (locate : UInt64) (d : BookSide) :
    ∃ trades : List Trade, r.frames locate d = trades.map .trade ∧
      (trades.map fun t => t.quantity.toNat) = r.trades.map fun t => t.2.toNat := by
  refine ⟨r.trades.map fun t => { locate := locate, orderRef := t.1.orderId, side := d.side
                                  price := t.1.price, quantity := t.2 }, ?_, ?_⟩
  · rw [List.map_map]
    rfl
  · rw [List.map_map]
    rfl

/-- The error of an order that may not rest is the one it is given. -/
theorem Exchange.error_of_mem_submitNow {x : Exchange} {locate : UInt64} {o : OrderInfo}
    {needed : UInt32} {code code' : ErrorCode}
    (h : .error code' ∈ (x.submitNow locate o needed code).2) : code' = code := by
  have hno := not_mem_frames (x.fills locate o) locate o.side.bookSide.opposite code'
  unfold Exchange.submitNow at h
  dsimp only at h
  split_ifs at h
  · simp [hno] at h
  · simpa [hno] using h
  · exact absurd h hno

/-- The checks of `processAdd` have errors of their own. -/
theorem Exchange.code_of_refusal {locate ref : UInt64} {side : Side} {price quantity : UInt32}
    {userId : UInt64} {tif : OrderTif} {code : ErrorCode}
    (h : Exchange.refusal locate ref side price quantity userId tif = some code) :
    code ≠ .mktNoLiquidity ∧ code ≠ .fokNoFullFill := by
  unfold Exchange.refusal at h
  split_ifs at h
  all_goals
    obtain rfl := Option.some.inj h
    decide

namespace MatchingEngine

variable {e : MatchingEngine} {locate ref : UInt64} {side : Side} {price quantity : UInt32}
  {userId : UInt64}

/-! ### Answers of the engine -/

/-- Somebody else's order on the other side is within the limit. -/
def Meets (e : MatchingEngine) (locate : UInt64) (side : Side) (limit : UInt32)
    (userId : UInt64) : Prop :=
  ∃ y ∈ e.abs.queues (locate, side.bookSide.opposite),
    ¬ Skips userId y ∧ ¬ side.bookSide.opposite.Better limit y.price

/-- There is room for the rest of a day order: a free slot, or somebody to trade with. -/
def HasRoom (e : MatchingEngine) (locate : UInt64) (side : Side) (limit : UInt32)
    (userId : UInt64) : Prop :=
  e.pool.freeCount ≠ 0 ∨ e.Meets locate side limit userId

/-- The answers to a day order that passes the checks, and what becomes of the rest of it. -/
inductive DayAnswer (e : MatchingEngine) (locate ref : UInt64) (side : Side)
    (price quantity : UInt32) (userId : UInt64) (r : MatchingEngine × List BinaryResponse) : Prop
  | filled (trades : List Trade) (hout : r.2 = trades.map .trade ++ [.filled ref])
      (hroom : e.HasRoom locate side price userId)
      (hsum : (trades.map fun t => t.quantity.toNat).sum = quantity.toNat)
  | refused (hout : r.2 = [.error .poolFull]) (hroom : ¬ e.HasRoom locate side price userId)
  | rests (trades : List Trade) (hout : r.2 = trades.map .trade ++ [.ok ref])
      (hroom : e.HasRoom locate side price userId) (i : UInt32)
      (hi : i ∈ r.1.slots (locate, side.bookSide)) (hid : (r.1.pool.storage i).orderId = ref)
      (hsum : (trades.map fun t => t.quantity.toNat).sum
        + (r.1.pool.storage i).remainingQty.toNat = quantity.toNat)

/-- `processAdd` of a day order that passes the checks. -/
theorem Inv.processAdd_day (h : e.Inv)
    (hvalid : Exchange.refusal locate ref side price quantity userId .day = none) :
    ∃ r, e.processAdd locate ref side price quantity userId .day = some r ∧
      e.DayAnswer locate ref side price quantity userId r := by
  obtain ⟨-, hside, -, hpos, -⟩ := Exchange.refusal_eq_none_iff.mp hvalid
  obtain ⟨order, -, e₃, horder, -, -, hinv₃, habs₃, -, heq⟩ :=
    h.processAdd_passes ⟨hvalid, fun htif => absurd htif (by decide)⟩
  have hinfo : order.toOrderInfo = Exchange.incoming ref side price quantity userId :=
    horder ▸ rfl
  have hopen : order.status = .opened := congrArg OrderInfo.status hinfo
  have hid : order.orderId = ref := congrArg OrderInfo.orderId hinfo
  have hside' : order.side = side := congrArg OrderInfo.side hinfo
  obtain ⟨fs, hfs⟩ : ∃ fs, fs = e.abs.fills locate order.toOrderInfo := ⟨_, rfl⟩
  have hgreedy : fs = greedy side.bookSide.opposite userId price quantity
      (e.abs.queues (locate, side.bookSide.opposite)) := by
    rw [hfs, hinfo]
    rfl
  have hsum := @greedy_rest_toNat side.bookSide.opposite userId price quantity
    (e.abs.queues (locate, side.bookSide.opposite))
  rw [← hgreedy] at hsum
  have hfree₃ : e₃.pool.freeCount = e.pool.freeCount + fs.consumed.length := by
    rw [hfs]
    exact congrArg Exchange.free habs₃
  have hidle (hmeets : ¬ e.Meets locate side price userId) :
      fs = ⟨[], e.abs.queues (locate, side.bookSide.opposite), quantity⟩ := by
    rw [hgreedy]
    refine greedy_of_idle fun y hy => ?_
    by_contra hno
    exact hmeets ⟨y, hy, not_or.mp hno⟩
  obtain ⟨trades, hframes, hqty⟩ := fs.exists_trades locate order.side.bookSide.opposite
  rw [← hfs, hframes, finishAdd] at heq
  by_cases hs : (takerOf e.abs locate order).status = .filled
  · rw [if_pos hs] at heq
    obtain ⟨htrades, hzero⟩ := (taker_filled_iff _ hopen).mp hs
    rw [← hfs] at htrades hzero
    refine ⟨_, heq, .filled trades (by rw [← hid]; rfl) (Or.inr ?_) ?_⟩
    · by_contra hmeets
      exact htrades (by rw [hidle hmeets])
    · rw [hqty]
      simpa [hzero] using hsum
  have hrests : (takerOf e.abs locate order).status = .opened ∨
      (takerOf e.abs locate order).status = .partiallyFilled := taker_status _ hopen hs
  rw [if_neg hs, if_neg (by decide), if_neg (by decide), if_pos hrests] at heq
  by_cases hfull : e₃.pool.freeCount = 0
  · -- nobody was traded with, so nobody could be
    have htrades := idle_of_full hopen hs habs₃ hfull
    rw [← hfs] at htrades
    obtain rfl : trades = [] := by simpa [htrades] using hqty
    obtain ⟨e₄, hrest, -⟩ := @restOrder_refused e₃ hinv₃ locate (takerOf e.abs locate order) []
      (Or.inr hfull)
    refine ⟨_, heq.trans hrest, .refused rfl ?_⟩
    rintro (hfree | ⟨y, hy, hskip, hbetter⟩)
    · omega
    · rw [hgreedy] at htrades
      exact (idle_of_trades_nil (h.proper.sorted _) hpos htrades y hy).elim hskip hbetter
  · obtain ⟨r, hr⟩ := hinv₃.exists_restOrder locate (takerOf e.abs locate order)
      (trades.map .trade)
    obtain ⟨hout, i, hi, hinfo'⟩ := hinv₃.restOrder_ok
      (show (takerOf e.abs locate order).side ≠ .invalid from hside' ▸ hside) hfull hr
    refine ⟨r, heq.trans hr, .rests trades (by rw [hout, ← hid]; rfl) ?_ i ?_ ?_ ?_⟩
    · by_contra hroom
      -- no slot is free and nothing is traded, so no slot becomes free
      obtain ⟨hfree, hmeets⟩ := not_or.mp hroom
      rw [hidle hmeets] at hfree₃
      exact hfull (hfree₃.trans (by simpa [Fills.consumed] using hfree))
    · rw [← hside']
      exact hi
    · have hsame := congrArg OrderInfo.orderId hinfo'
      exact hsame.trans hid
    · rw [show (r.1.pool.storage i).remainingQty = fs.rest from
        (congrArg OrderInfo.remainingQty hinfo').trans (by rw [hfs]; rfl), hqty]
      omega

/-- An immediate order that passes the checks: the only error is `MKT_NO_LIQUIDITY`. -/
theorem Inv.processAdd_ioc (h : e.Inv)
    (hvalid : Exchange.refusal locate ref side price quantity userId .ioc = none) :
    ∃ r, e.processAdd locate ref side price quantity userId .ioc = some r ∧
      ∀ code, .error code ∈ r.2 → code = .mktNoLiquidity := by
  obtain ⟨order, -, e₃, -, -, -, -, -, -, heq⟩ :=
    h.processAdd_passes ⟨hvalid, fun htif => absurd htif (by decide)⟩
  obtain ⟨e₄, -, hfin⟩ := finishAdd_now e₃ e.abs locate order quantity 1 (Or.inl ⟨rfl, rfl, rfl⟩)
  exact ⟨_, heq.trans hfin, fun code hcode => Exchange.error_of_mem_submitNow hcode⟩

/-- A fill-or-kill order that passes the checks: the only error is `FOK_NO_FULL_FILL`. -/
theorem Inv.processAdd_fok_error (h : e.Inv)
    (hvalid : Exchange.refusal locate ref side price quantity userId .fok = none) :
    ∃ r, e.processAdd locate ref side price quantity userId .fok = some r ∧
      ∀ code, .error code ∈ r.2 → code = .fokNoFullFill := by
  obtain ⟨-, e', heq, -⟩ | ⟨-, e', heq, -⟩ := h.processAdd_fok hvalid
  · refine ⟨_, heq, fun code hcode => ?_⟩
    simpa using hcode
  · exact ⟨_, heq, fun code hcode => Exchange.error_of_mem_submitNow hcode⟩

end MatchingEngine

namespace TcpTradeServer

open Ouch

/-! ### Frames -/

/-- The quantity that the `'E'` frames of an answer add up to. -/
def executedQty (frames : List (List UInt8)) : Nat :=
  ((frames.filter fun r => r.getD 0 0 = kOuchMsgExec).map fun r =>
    (ItchParser.rdU32 r 32).toNat).sum

section
variable (ref orderId : UInt64) (side : UInt8) (shares : UInt32)

theorem type_accepted (symbolId : UInt64) :
    (encodeAccepted ref orderId side shares symbolId).getD 0 0 = kOuchMsgAck :=
  (fields_accepted ref orderId side shares symbolId).getD_eq (k := 0) (by simp) 0

theorem type_rejected (reason : List UInt8) :
    (encodeRejected ref orderId side reason).getD 0 0 = kOuchMsgReject :=
  (fields_rejected ref orderId side reason).getD_eq (k := 0) (by simp) 0

theorem type_executed (priceCents : UInt64) (execQty : UInt32) (execPriceCents : UInt64) :
    (encodeExecuted ref orderId side shares priceCents execQty execPriceCents).getD 0 0
      = kOuchMsgExec :=
  (fields_executed ref orderId side shares priceCents execQty execPriceCents).1.getD_eq
    (k := 0) (by simp) 0

end

section
variable {ref : UInt64} {ord : OuchEnter} {tif : OrderTif} {out : List BinaryResponse}

/-- `'A'` is sent unless a fill-or-kill order could not be filled. -/
theorem exists_ack (ref : UInt64) (ord : OuchEnter)
    (h : ¬ (tif = .fok ∧ BinaryResponse.error .fokNoFullFill ∈ out)) :
    ∃ r ∈ enterFrames ref ord tif out, r.getD 0 0 = kOuchMsgAck := by
  refine ⟨encodeAccepted ref ord.orderId ord.side ord.shares ord.symbolId, ?_, type_accepted ..⟩
  rw [enterFrames, if_neg h]
  dsimp only
  split <;> exact List.mem_cons_self

/-- The frames of a day order. -/
theorem enterFrames_day {trades : List Trade} {answer : BinaryResponse}
    (hanswer : ∀ t, answer ≠ .trade t) :
    enterFrames ref ord .day (trades.map .trade ++ [answer])
      = encodeAccepted ref ord.orderId ord.side ord.shares ord.symbolId :: trades.map fun t =>
          encodeExecuted ref ord.orderId ord.side ord.shares ord.price.toUInt32.toUInt64 t.quantity
            t.price.toUInt64 := by
  unfold enterFrames
  simp only [reduceCtorEq, false_and, if_false, ne_eq, not_true_eq_false, and_false,
    List.filterMap_append, List.filterMap_map, List.map_append, Function.comp_def,
    List.filterMap_some]
  cases answer with
  | trade t => exact absurd rfl (hanswer t)
  | _ => simp

/-- The `'E'` frames of a day order have the quantities of its trades. -/
theorem executedQty_day {trades : List Trade} {answer : BinaryResponse}
    (hanswer : ∀ t, answer ≠ .trade t) :
    executedQty (enterFrames ref ord .day (trades.map .trade ++ [answer]))
      = (trades.map fun t => t.quantity.toNat).sum := by
  rw [enterFrames_day hanswer, executedQty,
    List.filter_cons_of_neg (by rw [type_accepted]; decide), List.filter_eq_self.mpr ?_,
    List.map_map]
  · congr 1
    refine List.map_congr_left fun t _ => ?_
    exact congrArg UInt32.toNat (rdU32_eq (fields_executed ..).2.2.1)
  · intro r hr
    obtain ⟨t, -, rfl⟩ := List.mem_map.mp hr
    exact decide_eq_true (type_executed ..)

end

/-! ### An order message -/

/-- The side of an order message. -/
def enterSide (ord : OuchEnter) : Side := if ord.side = 83 then .sell else .buy

/-- The engine call of an order message. -/
def enterCall (e : MatchingEngine) (ord : OuchEnter) :
    Option (MatchingEngine × List BinaryResponse) :=
  e.processAdd ord.symbolId ord.orderId (enterSide ord) ord.price.toUInt32 ord.shares ord.orderId
    (tifOf ord.tif)

theorem handleEnter_eq (e : MatchingEngine) (s : TcpTradeServer) (ord : OuchEnter) :
    ∃ s', handleEnter MatchingEngine.calls e s ord = (enterCall e ord).map fun r =>
      ((r.1, s'), enterFrames (s.refFor ord.orderId).2 ord (tifOf ord.tif) r.2) :=
  ⟨_, Option.map_eq_bind.symm⟩

/-- The frames say what became of the order: an error other than `MKT_NO_LIQUIDITY` is told by
`'J'` and without an `'A'`, and what is left of an accepted day order rests. -/
structure TellsOutcome (ord : OuchEnter) (e : MatchingEngine) (out : List BinaryResponse)
    (frames : List (List UInt8)) : Prop where
  refused : ∀ code, .error code ∈ out → code ≠ .mktNoLiquidity →
    (∃ r ∈ frames, r.getD 0 0 = kOuchMsgReject) ∧ ∀ r ∈ frames, r.getD 0 0 ≠ kOuchMsgAck
  rests : (∃ r ∈ frames, r.getD 0 0 = kOuchMsgAck) → ord.tif = 68 →
    executedQty frames < ord.shares.toNat →
    ∃ i ∈ e.slots (ord.symbolId, (enterSide ord).bookSide),
      (e.pool.storage i).orderId = ord.orderId ∧
      executedQty frames + (e.pool.storage i).remainingQty.toNat = ord.shares.toNat

/-- What it takes: the fields pass the checks of the engine, and there is room for a day order. -/
def Enterable (e : MatchingEngine) (ord : OuchEnter) : Prop :=
  Exchange.refusal ord.symbolId ord.orderId (enterSide ord) ord.price.toUInt32 ord.shares
      ord.orderId (tifOf ord.tif) = none ∧
    (ord.tif = 68 → e.HasRoom ord.symbolId (enterSide ord) ord.price.toUInt32 ord.orderId)

/-- **Accepted means accepted.** The frames sent for an order message say what became of the
order, exactly if its fields pass the checks of the engine and, for a day order, a slot is free
or somebody else's order is within the limit. -/
theorem accepted_means_accepted {e : MatchingEngine} (h : e.Inv) (s : TcpTradeServer)
    (ord : OuchEnter) :
    (∃ e' s' out frames, enterCall e ord = some (e', out) ∧
      handleEnter MatchingEngine.calls e s ord = some ((e', s'), frames) ∧
      TellsOutcome ord e' out frames) ↔ Enterable e ord := by
  obtain ⟨s₁, hent⟩ := handleEnter_eq e s ord
  have hday : tifOf ord.tif = .day ↔ ord.tif = 68 := by
    unfold tifOf
    split_ifs <;> simp_all
  constructor
  · rintro ⟨e', s', out, frames, hadd, hframes, htells⟩
    rw [hent, hadd, Option.map_some, Option.some.injEq, Prod.mk.injEq] at hframes
    obtain ⟨-, rfl⟩ := hframes
    -- an error the server does not look for is accepted
    have hmiss {code : ErrorCode} (hcode : code ≠ .mktNoLiquidity ∧ code ≠ .fokNoFullFill)
        (hout : out = [.error code]) : False := by
      obtain ⟨r, hr, hack⟩ := exists_ack (s.refFor ord.orderId).2 ord
        (show ¬ (tifOf ord.tif = .fok ∧ .error .fokNoFullFill ∈ out) by
          simp [hout, hcode.2.symm])
      exact (htells.refused code (by simp [hout]) hcode.1).2 r hr hack
    have hvalid : Exchange.refusal ord.symbolId ord.orderId (enterSide ord) ord.price.toUInt32
        ord.shares ord.orderId (tifOf ord.tif) = none := by
      obtain ⟨code, e₁, href, heq, -⟩ | ⟨hvalid, -⟩ := MatchingEngine.processAdd_eq e ord.symbolId
        ord.orderId (enterSide ord) ord.price.toUInt32 ord.shares ord.orderId (tifOf ord.tif)
      · obtain ⟨-, hout⟩ := Prod.mk.inj (Option.some.inj (hadd.symm.trans heq))
        exact (hmiss (Exchange.code_of_refusal href) hout).elim
      · exact hvalid
    refine ⟨hvalid, fun htif => ?_⟩
    rw [enterCall, hday.mpr htif] at hadd
    rw [hday.mpr htif] at hvalid
    obtain ⟨r, hr, hanswer⟩ := h.processAdd_day hvalid
    obtain rfl := Option.some.inj (hadd.symm.trans hr)
    cases hanswer with
    | filled _ _ hroom _ => exact hroom
    | refused hout _ => exact (hmiss (by decide) hout).elim
    | rests _ _ hroom _ _ _ _ => exact hroom
  · rintro ⟨hvalid, hroom⟩
    rw [hent, enterCall]
    cases htif : tifOf ord.tif with
    | day =>
        rw [htif] at hvalid
        obtain ⟨⟨e', out⟩, hr, hanswer⟩ := h.processAdd_day hvalid
        refine ⟨e', s₁, out, _, hr, by rw [hr]; rfl, ?_⟩
        cases hanswer with
        | filled trades hout _ hsum =>
            obtain rfl : out = _ := hout
            refine ⟨fun code hcode => by simp at hcode, fun _ _ hlt => ?_⟩
            rw [executedQty_day (by simp)] at hlt
            omega
        | refused _ hno => exact absurd (hroom (hday.mp htif)) hno
        | rests trades hout _ i hi hid hsum =>
            obtain rfl : out = _ := hout
            refine ⟨fun code hcode => by simp at hcode, fun _ _ _ => ⟨i, hi, hid, ?_⟩⟩
            rw [executedQty_day (by simp)]
            exact hsum
    | ioc =>
        rw [htif] at hvalid
        obtain ⟨⟨e', out⟩, hr, hcode⟩ := h.processAdd_ioc hvalid
        refine ⟨e', s₁, out, _, hr, by rw [hr]; rfl, fun code hmem hne => ?_, fun _ hd => ?_⟩
        · exact absurd (hcode code hmem) hne
        · rw [hday.mpr hd] at htif
          cases htif
    | fok =>
        rw [htif] at hvalid
        obtain ⟨⟨e', out⟩, hr, hcode⟩ := h.processAdd_fok_error hvalid
        refine ⟨e', s₁, out, _, hr, by rw [hr]; rfl, fun code hmem _ => ?_, fun _ hd => ?_⟩
        · obtain rfl := hcode code hmem
          rw [enterFrames, if_pos ⟨rfl, hmem⟩]
          refine ⟨⟨_, List.mem_singleton_self _, type_rejected ..⟩, fun r hr => ?_⟩
          rw [List.mem_singleton.mp hr, type_rejected]
          decide
        · rw [hday.mpr hd] at htif
          cases htif

/-- A day order of token 42: buy 5 at `price` in book 7. -/
def dayBuy42 (price : UInt64) : OuchEnter where
  orderId := 42
  side := 66
  shares := 5
  symbolId := 7
  price := price
  tif := 68

/-- A day order that rests. -/
theorem accepted_means_accepted_rests : ∃ e₀, MatchingEngine.ofCapacity 4 none none none = some e₀ ∧
    ∃ e' s' out frames, enterCall e₀ (dayBuy42 100) = some (e', out) ∧
      handleEnter MatchingEngine.calls e₀ {} (dayBuy42 100) = some ((e', s'), frames) ∧
      TellsOutcome (dayBuy42 100) e' out frames := by
  have hfree : (MatchingEngine.ofCapacity 4 none none none).map (fun e => e.pool.freeCount)
      = some 4 := by decide +kernel
  obtain ⟨e₀, h₀, hfree⟩ := Option.map_eq_some_iff.mp hfree
  refine ⟨e₀, h₀, (accepted_means_accepted (.start h₀) {} (dayBuy42 100)).mpr ⟨by decide, ?_⟩⟩
  intro _
  exact Or.inl (by rw [hfree]; decide)

/-- Both slots of the pool are taken and the order meets nobody: the engine answers `POOL_FULL`
and keeps nothing of the order, and the client is sent an `'A'`. -/
theorem refused_is_accepted : ∃ e₀ e outs e' s' a,
    MatchingEngine.ofCapacity 2 none none none = some e₀ ∧
    run MatchingEngine.exec e₀ [.add 7 1 .sell 100 5 1 .day, .add 7 2 .sell 101 5 2 .day]
      = some (e, outs) ∧
    enterCall e (dayBuy42 90) = some (e', [.error .poolFull]) ∧
    handleEnter MatchingEngine.calls e {} (dayBuy42 90) = some ((e', s'), [a]) ∧
    a.getD 0 0 = kOuchMsgAck ∧ e'.slots (7, .bid) = [] := by
  have hrun : ((MatchingEngine.ofCapacity 2 none none none).bind fun e₀ =>
      (run MatchingEngine.exec e₀ [.add 7 1 .sell 100 5 1 .day, .add 7 2 .sell 101 5 2 .day]).bind
        fun r => (enterCall r.1 (dayBuy42 90)).bind fun r' =>
          (handleEnter MatchingEngine.calls r.1 {} (dayBuy42 90)).map fun r'' =>
            (r'.2, r'.1.slots (7, .bid), r''.2.map fun a => a.getD 0 0))
      = some ([.error .poolFull], [], [kOuchMsgAck]) := by decide +kernel
  simp only [Option.bind_eq_some_iff, Option.map_eq_some_iff, Prod.mk.injEq] at hrun
  obtain ⟨e₀, h₀, ⟨e, outs⟩, hrun, ⟨e', out⟩, hadd, ⟨⟨e'', s'⟩, frames⟩, hent, hout, hslots,
    hframes⟩ := hrun
  obtain rfl : out = _ := hout
  obtain ⟨a, rfl, ha⟩ := List.map_eq_singleton_iff.mp hframes
  obtain ⟨s₁, heq⟩ := handleEnter_eq e {} (dayBuy42 90)
  rw [hadd, hent, Option.map_some, Option.some.injEq, Prod.mk.injEq, Prod.mk.injEq] at heq
  obtain ⟨⟨rfl, -⟩, -⟩ := heq
  exact ⟨e₀, e, outs, e'', s', a, h₀, hrun, hadd, hent, ha, hslots⟩

end TcpTradeServer

end NebulaX
