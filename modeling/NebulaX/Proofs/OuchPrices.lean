import NebulaX.Proofs.OuchCancel
import NebulaX.Proofs.OuchEnter
import NebulaX.Proofs.TopOfBook
import NebulaX.Spec.Replica

/-!
# `NebulaX.Proofs.OuchPrices`: prices on the wire

Both servers take prices in units of a hundredth of a cent and divide by 100, so no price above
42949672 comes in. A market order carries the price `UINT32_MAX`, but it never rests
(`Bounded.step`), and a trade is made at the price of the resting order. So every price that is
sent fits in 32 bits after the multiplication by 100.

`Venue.TellsPrices` says what the frames for one order frame tell: the executions are those of the
trades of the engine, one by one and in their order (`executions_enterFrames`), and a book message
has the best prices that rest.

`Venue` is the engine with both servers in front of it, as `main.cpp` sets them up.
-/

set_option autoImplicit false

namespace NebulaX

open NebulaX.Lib

namespace Exchange

/-! ### Prices in the books -/

/-- No resting order has a price above `m`. -/
def Bounded (m : UInt32) (x : Exchange) : Prop := ∀ π, ∀ o ∈ x.queues π, o.price ≤ m

section
variable {m : UInt32} {keep : Bool} {x x' : Exchange} {locate : UInt64} {o : OrderInfo}
  {r : Exchange × List BinaryResponse}

theorem Bounded.thins (h : x.Bounded m) (ht : Thins x x') : x'.Bounded m := by
  intro π o ho
  obtain ⟨o', ho', hl⟩ := ht π o ho
  rw [hl.price]
  exact h π o' ho'

/-- An order whose price is within the bound may rest. -/
theorem Submitted.bounded (hr : Submitted keep x locate o r) (h : x.Bounded m)
    (ho : o.price ≤ m) : r.1.Bounded m := by
  intro π y hy
  rcases hr.mem hy with ⟨y', hy', hl⟩ | ⟨-, rfl, -⟩
  · rw [hl.price]
    exact h π y' hy'
  · exact ho

/-- An order that may not rest leaves nothing. -/
theorem thins_submitNow (x : Exchange) (locate : UInt64) (o : OrderInfo) (needed : UInt32)
    (code : ErrorCode) : Thins x (x.submitNow locate o needed code).1 := by
  unfold submitNow
  dsimp only
  split_ifs <;> exact thins_matched x locate o

/-- A trade is made at the price of a resting order. -/
theorem Submitted.trade_price (hr : Submitted keep x locate o r) (h : x.Bounded m) {t : Trade}
    (ht : .trade t ∈ r.2) : t.price ≤ m := by
  obtain ⟨tail, hout, -, htail⟩ := hr.out
  rw [hout, List.mem_append] at ht
  obtain ⟨p, hp, rfl⟩ := mem_tradeFrames.mp (ht.resolve_right (htail t))
  exact h _ _ (mem_of_mem_trades hp).1

end

end Exchange

/-- The price a call brings is at most `m`. -/
def Call.Priced (m : UInt32) : Call → Prop
  | .add _ _ _ price .. => price ≤ m
  | .replace _ _ _ _ price .. => price ≤ m
  | _ => True

namespace Exchange

section
variable {m : UInt32} {x : Exchange} {c : Call}

/-- A call with a price within the bound keeps the books within the bound. A market order may
be matched with a price beyond it, and does not rest. -/
theorem Bounded.step (h : x.Bounded m) (hx : x.Proper) (hc : c.Priced m) (keep : Bool) :
    (x.step keep c).1.Bounded m := by
  cases c with
  | add locate ref side price quantity userId tif =>
      show (x.add keep locate ref side price quantity userId tif).1.Bounded m
      unfold add
      dsimp only
      split
      · exact h
      · cases tif with
        | day => exact (submitDay_submitted keep x locate _).bounded h hc
        | ioc => exact h.thins (thins_submitNow x locate _ _ _)
        | fok =>
            dsimp only
            split
            · exact h.thins (thins_submitNow x locate _ _ _)
            · exact h
  | cancel locate ref userId =>
      have hdoes := step_does keep x (.cancel locate ref userId)
      generalize x.step keep (.cancel locate ref userId) = r at hdoes ⊢
      cases hdoes with
      | refused _ _ _ => exact h
      | cancelled _ => exact h.thins (thins_remove x _ _)
  | cancelShares locate ref shares userId =>
      have hdoes := step_does keep x (.cancelShares locate ref shares userId)
      generalize x.step keep (.cancelShares locate ref shares userId) = r at hdoes ⊢
      cases hdoes with
      | refused _ _ _ => exact h
      | usedUp _ _ => exact h.thins (thins_remove x _ _)
      | reduced ho hlt => exact h.thins (thins_reduce hx ho hlt)
  | replace locate oldRef newRef side price quantity userId =>
      have hdoes := step_does keep x (.replace locate oldRef newRef side price quantity userId)
      generalize x.step keep (.replace locate oldRef newRef side price quantity userId) = r
        at hdoes ⊢
      cases hdoes with
      | refused _ _ _ => exact h
      | replaced _ hr => exact hr.bounded (h.thins (thins_remove x _ _)) hc

/-- The prices of the trades of a call. -/
theorem Bounded.trade_price (h : x.Bounded m) {keep : Bool} {t : Trade}
    (ht : .trade t ∈ (x.step keep c).2) : t.price ≤ m := by
  have hdoes := step_does keep x c
  generalize x.step keep c = r at hdoes ht
  cases hdoes with
  | refused _ _ _ => simp at ht
  | cancelled _ => simp at ht
  | usedUp _ _ => simp at ht
  | reduced _ _ => simp at ht
  | added _ _ hr => exact hr.trade_price h ht
  | replaced _ hr => exact hr.trade_price (h.thins (thins_remove x _ _)) ht

end

end Exchange

/-! ### Order frames -/

namespace TcpTradeServer

open Ouch

variable {ord : OuchEnter} {ref : UInt64} {tif : OrderTif} {out : List BinaryResponse}
variable {r : List UInt8}

/-- The engine call of an order frame. -/
def callOf (s : TcpTradeServer) (f : List UInt8) : Option Call :=
  if f.getD 0 0 = kOuchMsgOrder then
    (decodeEnter f).map fun ord => .add ord.symbolId ord.orderId (enterSide ord)
      ord.price.toUInt32 ord.shares ord.orderId (tifOf ord.tif)
  else if f.getD 0 0 = kOuchMsgBookReq then none
  else (s.orderLocate (tokenId f)).map fun locate => .cancel locate (tokenId f) (tokenId f)

/-- What the server does with a frame: it counts and answers, or it makes one engine call and
answers with what comes of it. -/
theorem handleMessage_eq (e : MatchingEngine) (s : TcpTradeServer) (f : List UInt8) :
    (s.callOf f = none ∧ ∃ e' s' frames, handleMessage MatchingEngine.calls (e, s) f
        = some ((e', s'), frames) ∧ MatchingEngine.Same e e') ∨
      ∃ c s', ∃ send : List BinaryResponse → List (List UInt8), s.callOf f = some c ∧
        handleMessage MatchingEngine.calls (e, s) f
          = (e.exec c).map fun r => ((r.1, s'), send r.2) := by
  unfold callOf handleMessage
  split
  · cases decodeEnter f with
    | none => exact Or.inl ⟨rfl, e, s, [], rfl, .refl e⟩
    | some ord =>
        obtain ⟨s', heq⟩ := handleEnter_eq e s ord
        exact Or.inr ⟨_, s', _, rfl, heq⟩
  · split
    · refine Or.inl ⟨rfl, ?_⟩
      cases decodeBookReq f with
      | none => exact ⟨e, s, [], rfl, .refl e⟩
      | some locate => exact ⟨_, _, _, rfl, .count e _⟩
    · show (_ ∧ ∃ e' s' frames, handleCancel MatchingEngine.calls e s (tokenId f) = _ ∧ _) ∨
        ∃ c s' send, _ ∧ handleCancel MatchingEngine.calls e s (tokenId f) = _
      rw [handleCancel_eq]
      cases s.orderLocate (tokenId f) with
      | none => exact Or.inl ⟨rfl, _, _, _, rfl, .refl e⟩
      | some locate => exact Or.inr ⟨_, _, _, rfl, rfl⟩

/-- A decoded price is within the bound. -/
theorem price_le_of_decodeEnter {f : List UInt8} (h : decodeEnter f = some ord) :
    ord.price.toUInt32 ≤ maxPrice := by
  unfold decodeEnter at h
  split_ifs at h
  obtain rfl := Option.some.inj h
  rw [UInt32.toUInt32_toUInt64]
  exact div_le_maxPrice _

/-- The executions among the frames that are sent. -/
def executions (frames : List (List UInt8)) : List (List UInt8) :=
  frames.filter fun r => r.getD 0 0 = kOuchMsgExec

/-- The fills an order is told of, each a quantity and a price: the trades of its call. An order
that may not rest and has traded nothing is told of a fill of nothing, and one that is refused for
want of a full fill is told of none. -/
def fillsTold (tif : OrderTif) (out : List BinaryResponse) : List (UInt32 × UInt32) :=
  if tif = .fok ∧ BinaryResponse.error .fokNoFullFill ∈ out then []
  else if reportedTrades out = [] ∧ tif ≠ .day then [(0, 0)]
  else (reportedTrades out).map fun t => (t.quantity, t.price)

/-- What an execution tells: the price of the order, and the quantity and the price of a fill. -/
def TellsFill (ord : OuchEnter) (r : List UInt8) (fill : UInt32 × UInt32) : Prop :=
  CarriesPrice r 28 ord.price.toUInt32 ∧ ItchParser.rdU32 r 32 = fill.1 ∧ CarriesPrice r 36 fill.2

/-- The execution of one fill. -/
def executionOf (ref : UInt64) (ord : OuchEnter) (fill : UInt32 × UInt32) : List UInt8 :=
  encodeExecuted ref ord.orderId ord.side ord.shares ord.price.toUInt32.toUInt64 fill.1
    fill.2.toUInt64

/-- The frames for an order: a refusal, or the acceptance and an execution for each fill. -/
theorem enterFrames_eq (ref : UInt64) (ord : OuchEnter) (tif : OrderTif)
    (out : List BinaryResponse) :
    enterFrames ref ord tif out = if tif = .fok ∧ BinaryResponse.error .fokNoFullFill ∈ out then
        [encodeRejected ref ord.orderId ord.side fokNoFill]
      else encodeAccepted ref ord.orderId ord.side ord.shares ord.symbolId
        :: (fillsTold tif out).map (executionOf ref ord) := by
  show (if _ then _ else if reportedTrades out = [] ∧ tif ≠ OrderTif.day then _
    else _ :: (reportedTrades out).map _) = _
  unfold fillsTold
  split
  · rfl
  · split
    · rfl
    · rw [List.map_map]
      rfl

/-- The executions for an order are those of its fills. -/
theorem executions_enterFrames (ref : UInt64) (ord : OuchEnter) (tif : OrderTif)
    (out : List BinaryResponse) :
    executions (enterFrames ref ord tif out) = (fillsTold tif out).map (executionOf ref ord) := by
  rw [enterFrames_eq]
  split
  · rename_i hrejected
    rw [fillsTold, if_pos hrejected]
    exact List.filter_cons_of_neg (by rw [type_rejected]; decide)
  · refine (List.filter_cons_of_neg (by rw [type_accepted]; decide)).trans
      (List.filter_eq_self.mpr fun r hr => ?_)
    obtain ⟨fill, -, rfl⟩ := List.mem_map.mp hr
    exact decide_eq_true (type_executed ..)

/-- No order is told of a price above the bound, if the trades are within it. -/
theorem fillsTold_price_le (ht : ∀ t, .trade t ∈ out → t.price ≤ maxPrice)
    {fill : UInt32 × UInt32} (h : fill ∈ fillsTold tif out) : fill.2 ≤ maxPrice := by
  unfold fillsTold at h
  split_ifs at h
  · cases h
  · rw [List.mem_singleton.mp h]
    exact UInt32.zero_le
  · obtain ⟨t, hmem, rfl⟩ := List.mem_map.mp h
    obtain ⟨a, ha, hat⟩ := List.mem_filterMap.mp hmem
    cases a with
    | trade t' =>
        obtain rfl := Option.some.inj hat
        exact ht _ ha
    | _ => cases hat

/-- The price fields of an execution. -/
theorem carriesPrice_executed (ref orderId : UInt64) (side : UInt8) (shares execQty : UInt32)
    {price execPrice : UInt32} (hp : price ≤ maxPrice) (he : execPrice ≤ maxPrice) :
    CarriesPrice (encodeExecuted ref orderId side shares price.toUInt64 execQty
        execPrice.toUInt64) 28 price ∧
      CarriesPrice (encodeExecuted ref orderId side shares price.toUInt64 execQty
        execPrice.toUInt64) 36 execPrice := by
  obtain ⟨-, hprice, -, hexec⟩ := fields_executed ref orderId side shares price.toUInt64 execQty
    execPrice.toUInt64
  rw [UInt64.toUInt32_mul, UInt32.toUInt32_toUInt64] at hprice hexec
  exact ⟨carriesPrice_of_field hp hprice, carriesPrice_of_field he hexec⟩

/-- The executions for an order tell its fills, if the trades are within the bound. -/
theorem tellsFill_enterFrames (hp : ord.price.toUInt32 ≤ maxPrice)
    (ht : ∀ t, .trade t ∈ out → t.price ≤ maxPrice) :
    List.Forall₂ (TellsFill ord) (executions (enterFrames ref ord tif out))
      (fillsTold tif out) := by
  rw [executions_enterFrames, List.forall₂_map_left_iff, List.forall₂_same]
  intro fill hfill
  obtain ⟨hprice, hexec⟩ := carriesPrice_executed ref ord.orderId ord.side ord.shares fill.1 hp
    (fillsTold_price_le ht hfill)
  exact ⟨hprice, rdU32_eq (fields_executed ..).2.2.1, hexec⟩

/-- An order message is not answered with a book. -/
theorem type_of_mem_enterFrames (h : r ∈ enterFrames ref ord tif out) :
    r.getD 0 0 ≠ kOuchMsgBook := by
  rw [enterFrames_eq] at h
  split at h
  · rw [List.mem_singleton.mp h, type_rejected]
    decide
  · rcases List.mem_cons.mp h with hr | h
    · rw [hr, type_accepted]
      decide
    · obtain ⟨fill, -, hr⟩ := List.mem_map.mp h
      rw [← hr, executionOf, type_executed]
      decide

theorem type_book (locate : UInt64) (bidPriceCents bidVol askPriceCents askVol : UInt32) :
    (encodeBook locate bidPriceCents bidVol askPriceCents askVol).getD 0 0 = kOuchMsgBook :=
  (fields_book locate bidPriceCents bidVol askPriceCents askVol).1.getD_eq (k := 0) (by simp) 0

theorem type_of_mem_cancelFrames {orderId locate : UInt64}
    (h : r ∈ cancelFrames ref orderId locate out) :
    r.getD 0 0 = kOuchMsgCancel := by
  obtain ⟨a, -, ha⟩ := List.mem_filterMap.mp h
  cases a with
  | cancelled _ =>
      rw [← Option.some.inj ha]
      exact (fields_canceled ref orderId 66 0 locate).1.getD_eq (k := 0) (by simp) 0
  | _ => cases ha

end TcpTradeServer

namespace MatchingEngine

/-- The prices `getBook` reports are those of resting orders, or 0. -/
theorem ReportsPrice.le {e : MatchingEngine} {locate : UInt64} {d : BookSide} {m : UInt32}
    (h : e.ReportsPrice locate d) (hb : e.abs.Bounded m) :
    ((e.getBook locate).2.top d).1 ≤ m := by
  rw [ReportsPrice] at h
  split at h
  · rw [h]
    exact UInt32.zero_le
  · obtain ⟨⟨i, hi, hprice⟩, -⟩ := h
    rw [← hprice]
    exact hb (locate, d) _ (List.mem_map.mpr ⟨i, hi, rfl⟩)

end MatchingEngine

/-- The price of an event is at most `m`. -/
def ItchEvent.Priced (m : UInt32) : ItchEvent → Prop
  | .add _ _ _ _ price => price ≤ m
  | .replace _ _ _ _ price => price ≤ m
  | _ => True

/-- The price of a message is within the bound. -/
theorem ItchParser.priced_of_feed {p : ItchParser} {msg : List UInt8} {ev : ItchEvent}
    (h : (p.feed msg).2 = some ev) : ev.Priced Ouch.maxPrice := by
  unfold feed at h
  dsimp only at h
  split_ifs at h
  all_goals cases h
  all_goals first | exact Ouch.div_le_maxPrice _ | trivial

/-! ### Both servers -/

/-- A whole order frame: of the length its first byte says. -/
structure OuchFrame where
  bytes : List UInt8
  whole : TcpTradeServer.msgLen (bytes.getD 0 0) = some bytes.length

/-- What arrives: a message of the feed or an order frame. -/
inductive Arrival where
  | itch (msg : List UInt8)
  | ouch (f : OuchFrame)

/-- What is sent: the answers to a message, or the frames for each order frame. -/
inductive Reply where
  | itch (out : List BinaryResponse)
  | ouch (frames : List (List (List UInt8)))

/-- The engine with both servers in front of it. -/
structure Venue where
  engine : MatchingEngine
  itchParser : ItchParser := {}
  trade : TcpTradeServer := {}

namespace Venue

open Ouch TcpTradeServer

/-- One arrival. -/
def step (v : Venue) : Arrival → Option (Venue × Reply)
  | .itch msg => (TcpServer.processItchMessage ⟨v.engine, v.itchParser⟩ msg).map fun r =>
      ({ v with engine := r.1.engine, itchParser := r.1.itchParser }, .itch r.2)
  | .ouch f => (handleClient MatchingEngine.calls (v.engine, v.trade) f.bytes).map fun r =>
      ({ v with engine := r.1.1, trade := r.1.2 }, .ouch r.2)

/-- The engine call of an arrival. -/
def callOf (v : Venue) : Arrival → Option Call
  | .itch msg => TcpServer.callOf ⟨v.engine, v.itchParser⟩ msg
  | .ouch f => v.trade.callOf f.bytes

/-- The call of the arrival, if it leads to one, brings a reference that does not rest and is
addressed to the book of the order it names. -/
def Admits (_ : List (Arrival × Reply)) (v : Venue) (a : Arrival) : Prop :=
  ∀ c, v.callOf a = some c → MatchingEngine.Admissible [] v.engine c

section
variable {v : Venue} {h : List (Arrival × Reply)} {a : Arrival}

/-- An admitted arrival is answered; the books stay as they are or make one step. -/
theorem step_of_admits (hinv : v.engine.Inv) (hp : Admits h v a) :
    ∃ v' reply, v.step a = some (v', reply) ∧ v'.engine.Inv ∧
      (v'.engine.abs = v.engine.abs ∨
        ∃ c keep, v.callOf a = some c ∧ v'.engine.abs = (v.engine.abs.step keep c).1) := by
  cases a with
  | itch msg =>
      obtain ⟨s', out, heq, hinv', hcase⟩ :=
        TcpServer.step_of_admits (s := ⟨v.engine, v.itchParser⟩) hinv hp
      refine ⟨_, _, by rw [step, heq]; rfl, hinv', ?_⟩
      rcases hcase with ⟨habs, -⟩ | ⟨c, keep, hcall, habs⟩
      · exact Or.inl habs
      · exact Or.inr ⟨c, keep, hcall, congrArg Prod.fst habs⟩
  | ouch f =>
      rw [step, handleClient_message _ _ f.whole]
      rcases handleMessage_eq v.engine v.trade f.bytes with
        ⟨-, e', s', frames, heq, hs⟩ | ⟨c, s', send, hcall, heq⟩
      · exact ⟨_, _, by rw [heq]; rfl, hs.inv hinv, Or.inl hs.abs⟩
      · obtain ⟨keep, e', out, hexec, hinv', habs⟩ := hinv.exec (hp c hcall)
        exact ⟨_, _, by rw [heq, hexec]; rfl, hinv',
          Or.inr ⟨c, keep, hcall, congrArg Prod.fst habs⟩⟩

/-- Both servers divide by 100. -/
theorem priced_of_callOf {c : Call} (hc : v.callOf a = some c) : c.Priced maxPrice := by
  cases a with
  | itch msg =>
      obtain ⟨ev, hfeed, hev⟩ := Option.bind_eq_some_iff.mp hc
      have hprice := ItchParser.priced_of_feed hfeed
      cases ev with
      | add locate ref side shares price =>
          obtain rfl := Option.some.inj hev
          exact hprice
      | delete | cancel =>
          obtain rfl := Option.some.inj hev
          trivial
      | replace locate ref newRef shares price =>
          simp only [TcpServer.callOfEvent] at hev
          split at hev
          · obtain rfl := Option.some.inj hev
            exact hprice
          · cases hev
      | book => cases hev
  | ouch f =>
      change TcpTradeServer.callOf v.trade f.bytes = some c at hc
      unfold TcpTradeServer.callOf at hc
      split_ifs at hc
      · obtain ⟨ord, hord, rfl⟩ := Option.map_eq_some_iff.mp hc
        exact price_le_of_decodeEnter hord
      · obtain ⟨locate, -, rfl⟩ := Option.map_eq_some_iff.mp hc
        trivial

/-- The invariant of a run: the books are represented, no price is above the bound, and no order
rests in a book that does not exist. -/
structure PricesFit (v : Venue) : Prop where
  inv : v.engine.Inv
  bounded : v.engine.abs.Bounded maxPrice
  inside : v.engine.abs.Inside

/-- An arrival keeps the prices within the bound. -/
theorem PricesFit.step (hv : v.PricesFit) (hp : Admits h v a) :
    ∃ v' reply, v.step a = some (v', reply) ∧ v'.PricesFit := by
  obtain ⟨v', reply, heq, hinv, hcase⟩ := step_of_admits hv.inv hp
  rcases hcase with habs | ⟨c, keep, hcall, habs⟩
  · exact ⟨v', reply, heq, hinv, habs ▸ hv.bounded, habs ▸ hv.inside⟩
  · exact ⟨v', reply, heq, hinv,
      habs ▸ hv.bounded.step hv.inv.proper (priced_of_callOf hcall) keep,
      habs ▸ hv.inside.step hv.inv.proper keep c⟩

/-- `getBook` reports the best prices. -/
theorem PricesFit.reportsPrice (hv : v.PricesFit) (locate : UInt64) (d : BookSide) :
    v.engine.ReportsPrice locate d :=
  (hv.inv.top_volume fun hl => List.map_eq_nil_iff.mp (hv.inside (locate, d) hl)).1

/-- What the frames for the order frame `f` tell. The executions for an order tell the fills of the
engine's answer, one by one; the answer to a book query tells the best prices that rest. -/
structure TellsPrices (v : Venue) (f : List UInt8) (frames : List (List UInt8)) : Prop where
  executed : ∀ ord, decodeEnter f = some ord → ∃ e' out,
    enterCall v.engine ord = some (e', out) ∧
    List.Forall₂ (TellsFill ord) (executions frames) (fillsTold (tifOf ord.tif) out)
  noOrder : decodeEnter f = none → executions frames = []
  book : ∀ locate, decodeBookReq f = some locate → ∃ r, frames = [r] ∧
    r.getD 0 0 = kOuchMsgBook ∧
    v.engine.ReportsPrice locate .bid ∧ CarriesPrice r 11 (v.engine.getBook locate).2.bidPrice ∧
    v.engine.ReportsPrice locate .ask ∧ CarriesPrice r 19 (v.engine.getBook locate).2.askPrice
  noQuery : decodeBookReq f = none → ∀ r ∈ frames, r.getD 0 0 ≠ kOuchMsgBook

/-- Frames that tell no prices, for a frame that is neither an order nor a query. -/
theorem TellsPrices.of_neither {f : List UInt8} {frames : List (List UInt8)}
    (hord : decodeEnter f = none) (hreq : decodeBookReq f = none)
    (htype : ∀ r ∈ frames, r.getD 0 0 = kOuchMsgCancel) : v.TellsPrices f frames where
  executed ord h := by
    rw [hord] at h
    cases h
  noOrder _ := by
    refine List.filter_eq_nil_iff.mpr fun r hr => ?_
    rw [htype r hr]
    decide
  book locate h := by
    rw [hreq] at h
    cases h
  noQuery _ r hr := by
    rw [htype r hr]
    decide

/-- The frames for an order: the engine trades within the bound. -/
theorem PricesFit.tells_enterFrames (hv : v.PricesFit) {f : List UInt8} {ord : OuchEnter}
    (hord : decodeEnter f = some ord) (hreq : decodeBookReq f = none) {keep : Bool} {c : Call}
    {e' : MatchingEngine} {out : List BinaryResponse}
    (hcall : enterCall v.engine ord = some (e', out))
    (habs : (e'.abs, out) = v.engine.abs.step keep c) (ref : UInt64) :
    v.TellsPrices f (enterFrames ref ord (tifOf ord.tif) out) where
  executed ord' hord' := by
    obtain rfl := Option.some.inj (hord.symm.trans hord')
    refine ⟨e', out, hcall, tellsFill_enterFrames (price_le_of_decodeEnter hord) fun t ht => ?_⟩
    rw [show out = _ from congrArg Prod.snd habs] at ht
    exact hv.bounded.trade_price ht
  noOrder := by simp [hord]
  book := by simp [hreq]
  noQuery _ _ := type_of_mem_enterFrames

/-- The answer to a book query. -/
theorem PricesFit.tells_encodeBook (hv : v.PricesFit) {f : List UInt8} {locate : UInt64}
    (hord : decodeEnter f = none) (hreq : decodeBookReq f = some locate) {b : BookReport}
    (hb : (v.engine.getBook locate).2 = b) :
    v.TellsPrices f [encodeBook locate b.bidPrice b.bidVolume b.askPrice b.askVolume] where
  executed := by simp [hord]
  noOrder _ := by
    refine List.filter_eq_nil_iff.mpr fun r hr => ?_
    rw [List.mem_singleton.mp hr, type_book]
    decide
  book locate' hlocate := by
    obtain rfl := Option.some.inj (hreq.symm.trans hlocate)
    subst hb
    have hbid := hv.reportsPrice locate .bid
    have hask := hv.reportsPrice locate .ask
    exact ⟨_, rfl, type_book ..,
      hbid, carriesPrice_of_field (hbid.le hv.bounded) (fields_book ..).2.1,
      hask, carriesPrice_of_field (hask.le hv.bounded) (fields_book ..).2.2⟩
  noQuery := by simp [hreq]

/-- The frames for an order frame tell their prices. -/
theorem PricesFit.tellsPrices (hv : v.PricesFit) {f : OuchFrame} (hp : Admits h v (.ouch f)) :
    ∃ v' frames, v.step (.ouch f) = some (v', .ouch [frames]) ∧ v.TellsPrices f.bytes frames := by
  rw [Venue.step, handleClient_message _ _ f.whole]
  have hcall : ∀ c, v.trade.callOf f.bytes = some c → ∃ keep e' out,
      v.engine.exec c = some (e', out) ∧ (e'.abs, out) = v.engine.abs.step keep c := by
    intro c hc
    obtain ⟨keep, e', out, hexec, -, habs⟩ := hv.inv.exec (hp c hc)
    exact ⟨keep, e', out, hexec, habs⟩
  -- the two decoders look at the type first
  have hnoOrder : f.bytes.getD 0 0 ≠ kOuchMsgOrder → decodeEnter f.bytes = none :=
    fun h => if_pos (Or.inr h)
  have hnoQuery : f.bytes.getD 0 0 ≠ kOuchMsgBookReq → decodeBookReq f.bytes = none :=
    fun h => if_pos (Or.inr h)
  unfold TcpTradeServer.callOf at hcall
  unfold handleMessage
  split
  · -- an order message
    rename_i htype
    rw [if_pos htype] at hcall
    have hreq := hnoQuery (by rw [htype]; decide)
    cases hord : decodeEnter f.bytes with
    | none => exact ⟨_, [], rfl, .of_neither hord hreq (by simp)⟩
    | some ord =>
        obtain ⟨keep, e', out, hexec, habs⟩ := hcall _ (by rw [hord]; rfl)
        obtain ⟨s', heq⟩ := handleEnter_eq v.engine v.trade ord
        rw [show enterCall v.engine ord = some (e', out) from hexec] at heq
        exact ⟨_, _, by dsimp only; rw [heq]; rfl, hv.tells_enterFrames hord hreq hexec habs _⟩
  · rename_i hno
    have hord := hnoOrder hno
    split
    · -- a book query
      cases hreq : decodeBookReq f.bytes with
      | none => exact ⟨_, [], rfl, .of_neither hord hreq (by simp)⟩
      | some locate => exact ⟨_, _, rfl, hv.tells_encodeBook hord hreq rfl⟩
    · -- a cancel
      rename_i hnq
      rw [if_neg hno, if_neg hnq] at hcall
      rw [handleCancel_eq]
      cases hloc : v.trade.orderLocate (tokenId f.bytes) with
      | none => exact ⟨_, [], rfl, .of_neither hord (hnoQuery hnq) (by simp)⟩
      | some locate =>
          obtain ⟨keep, e', out, hexec, -⟩ := hcall _ (by rw [hloc]; rfl)
          refine ⟨_, _, by
            dsimp only
            rw [show v.engine.processCancel locate _ _ = some (e', out) from hexec]
            rfl, .of_neither hord (hnoQuery hnq) fun r => type_of_mem_cancelFrames⟩

end

/-- **Prices survive the wire.** In every state that messages and order frames lead to from an
empty engine, no resting order has a price above 42949672, and every price field of the frames
sent for the next order frame carries the price of the engine: that of the order, of the trade the
execution stands for, or of the best order that rests. -/
theorem prices_survive {c : Nat} {metrics : Option IOCounters} {wal : Option WalWriter}
    {tradePool : Option TradePool} {e₀ : MatchingEngine} {p : ItchParser} {s : TcpTradeServer}
    {h : List (Arrival × Reply)} {v : Venue}
    (h₀ : MatchingEngine.ofCapacity c metrics wal tradePool = some e₀)
    (t : Trace step Admits ⟨e₀, p, s⟩ h v) :
    (∀ π, ∀ i ∈ v.engine.slots π, (v.engine.pool.storage i).price ≤ maxPrice) ∧
    ∀ f : OuchFrame, Admits h v (.ouch f) → ∃ v' frames,
      v.step (.ouch f) = some (v', .ouch [frames]) ∧ v.TellsPrices f.bytes frames := by
  have hempty : e₀.abs.Bounded maxPrice := by
    intro π o ho
    rw [MatchingEngine.abs_ofCapacity h₀] at ho
    exact absurd ho List.not_mem_nil
  have hv : v.PricesFit := by
    refine t.invariant (fun _ v => v.PricesFit)
      ⟨.start h₀, hempty, MatchingEngine.abs_ofCapacity h₀ ▸ Exchange.inside_empty _⟩ ?_
    intro h v a v' reply _ hv hp hstep
    obtain ⟨v'', reply', heq, hv'⟩ := hv.step hp
    rw [hstep, Option.some.injEq, Prod.mk.injEq] at heq
    rw [heq.1]
    exact hv'
  exact ⟨fun π i hi => hv.bounded π _ (List.mem_map.mpr ⟨i, hi, rfl⟩),
    fun f hp => hv.tellsPrices hp⟩

/-- The query for book 7. -/
def query7 : List UInt8 := 81 :: 55 :: List.replicate 9 32 ++ [0, 168]

/-- Token 42 sells at 100 in book 7. An execution is sent for token 43, which buys at 100 there, and
the book tells the ask to one who asks before. -/
theorem prices_survive_trade : ∃ e₀ v reply v₁ frames v₂ quote,
    MatchingEngine.ofCapacity 4 none none none = some e₀ ∧
    step ⟨e₀, {}, {}⟩ (.ouch ⟨enterSell42, by decide⟩) = some (v, reply) ∧
    v.step (.ouch ⟨enter43, by decide⟩) = some (v₁, .ouch [frames]) ∧
    v.step (.ouch ⟨query7, by decide⟩) = some (v₂, .ouch [quote]) ∧
    (frames.map fun r => r.getD 0 0) = [kOuchMsgAck, kOuchMsgExec] ∧
    (quote.map fun r => (r.getD 0 0, ItchParser.rdU32 r 19)) = [(kOuchMsgBook, 10000)] ∧
    v.TellsPrices enter43 frames ∧ v.TellsPrices query7 quote := by
  let sent (reply : Reply) : List (List UInt8) := match reply with
    | .ouch frames => frames.flatten
    | .itch _ => []
  have hrun : ((MatchingEngine.ofCapacity 4 none none none).bind fun e₀ =>
      (step ⟨e₀, {}, {}⟩ (.ouch ⟨enterSell42, by decide⟩)).bind fun r =>
        (r.1.step (.ouch ⟨enter43, by decide⟩)).bind fun r₁ =>
          (r.1.step (.ouch ⟨query7, by decide⟩)).map fun r₂ =>
            ((sent r₁.2).map fun r => r.getD 0 0,
              (sent r₂.2).map fun r => (r.getD 0 0, ItchParser.rdU32 r 19)))
      = some ([kOuchMsgAck, kOuchMsgExec], [(kOuchMsgBook, 10000)]) := by decide +kernel
  simp only [Option.bind_eq_some_iff, Option.map_eq_some_iff] at hrun
  obtain ⟨e₀, h₀, ⟨v, reply⟩, hfirst, ⟨v₁, reply₁⟩, hsecond, ⟨v₂, reply₂⟩, hquery, hend⟩ := hrun
  have hadm : Admits [] ⟨e₀, {}, {}⟩ (.ouch ⟨enterSell42, by decide⟩) :=
    fun c _ => MatchingEngine.admissible_start h₀ c
  -- only token 42 rests, so token 43 is new
  have hadm₁ : Admits [(.ouch ⟨enterSell42, by decide⟩, reply)] v (.ouch ⟨enter43, by decide⟩) := by
    obtain ⟨v₁, reply₁, heq, -, hcase⟩ := step_of_admits (.start h₀) hadm
    rw [hfirst, Option.some.injEq, Prod.mk.injEq] at heq
    obtain ⟨rfl, -⟩ := heq
    have hcall : callOf ⟨e₀, {}, {}⟩ (.ouch ⟨enterSell42, by decide⟩)
        = some (.add 7 42 .sell 100 5 42 .day) := by
      show TcpTradeServer.callOf {} enterSell42 = _
      decide +kernel
    have hrests : ∀ π, ∀ o ∈ v.engine.abs.queues π, o.orderId = 42 := by
      intro π o ho
      rcases hcase with habs | ⟨c, keep, hc, habs⟩
      · rw [habs, MatchingEngine.abs_ofCapacity h₀] at ho
        exact absurd ho List.not_mem_nil
      · rw [habs] at ho
        obtain rfl := Option.some.inj (hcall.symm.trans hc)
        have hproper := (MatchingEngine.Inv.start h₀).proper
        rcases (Exchange.step_does keep _ _).mem hproper ho with ⟨o', ho', -⟩ | ⟨-, hnew, -⟩
        · rw [MatchingEngine.abs_ofCapacity h₀] at ho'
          exact absurd ho' List.not_mem_nil
        · exact (Option.some.inj hnew).symm
    intro c hc
    obtain rfl : c = .add 7 43 .buy 100 5 43 .day := by
      change v.trade.callOf enter43 = some c at hc
      rw [TcpTradeServer.callOf, if_pos (by decide)] at hc
      have hcall' : ((decodeEnter enter43).map fun ord => Call.add ord.symbolId ord.orderId
          (enterSide ord) ord.price.toUInt32 ord.shares ord.orderId (tifOf ord.tif))
          = some (.add 7 43 .buy 100 5 43 .day) := by decide +kernel
      exact Option.some.inj (hc.symm.trans hcall')
    exact ⟨fun π o ho hid => absurd ((hrests π o ho).symm.trans hid) (by decide), trivial⟩
  have hadm₂ : Admits [(.ouch ⟨enterSell42, by decide⟩, reply)] v (.ouch ⟨query7, by decide⟩) := by
    intro c hc
    change v.trade.callOf query7 = some c at hc
    rw [TcpTradeServer.callOf, if_neg (by decide), if_pos (by decide)] at hc
    cases hc
  obtain ⟨-, htells⟩ := prices_survive h₀ (.snoc .nil hadm hfirst)
  obtain ⟨v₁', frames, heq₁, htold₁⟩ := htells ⟨enter43, by decide⟩ hadm₁
  obtain ⟨v₂', quote, heq₂, htold₂⟩ := htells ⟨query7, by decide⟩ hadm₂
  rw [hsecond, Option.some.injEq, Prod.mk.injEq] at heq₁
  rw [hquery, Option.some.injEq, Prod.mk.injEq] at heq₂
  obtain ⟨rfl, rfl⟩ := heq₁
  obtain ⟨rfl, rfl⟩ := heq₂
  simp only [sent, List.flatten_cons, List.flatten_nil, List.append_nil, Prod.mk.injEq] at hend
  obtain ⟨htypes, hask⟩ := hend
  exact ⟨e₀, v, reply, v₁, frames, v₂, quote, h₀, hfirst, hsecond, hquery, htypes, hask, htold₁,
    htold₂⟩

end Venue

end NebulaX
