import NebulaX.Proofs.Itch
import NebulaX.Proofs.Uncrossed
import NebulaX.Proofs.View

/-!
# `NebulaX.Proofs.Validity`: no empty or priceless orders

`processAdd` refuses an order without quantity, price or reference. `processReplace` rests
an order too, and checks none of the three; ITCH prices are divided by 100 first, so a price
below one cent arrives as 0.

* `no_empty_orders`: in every run of messages in which every replace of a resting order
  brings a reference, a price and shares, every resting order has all three, every trade
  frame has a quantity, and a book report is not crossed.
* `replace_rests_empty`: a replace by zero shares rests an ask with nothing to sell below
  the best bid, and the next buy trades a quantity of zero.
-/

set_option autoImplicit false

namespace NebulaX

open NebulaX.Lib

/-! ### Orders that can be served -/

/-- The order has something left, a price and a reference. -/
structure OrderInfo.Valid (o : OrderInfo) : Prop where
  remaining : o.remainingQty ≠ 0
  price : o.price ≠ 0
  orderId : o.orderId ≠ 0

namespace Exchange

/-- Every resting order is valid. -/
def AllValid (x : Exchange) : Prop := ∀ π, ∀ o ∈ x.queues π, o.Valid

/-- What keeps the orders valid: a new order may rest only after the checks of a DAY order,
and a replacement brings what those checks ask for. -/
def Brings (x : Exchange) : Call → Prop
  | .add _ _ _ _ _ _ tif => tif = .day
  | .replace locate oldRef newRef _ price quantity userId =>
      x.owned locate oldRef userId ≠ none → newRef ≠ 0 ∧ price ≠ 0 ∧ quantity ≠ 0
  | _ => True

section
variable {keep : Bool} {x x' : Exchange} {c : Call} {r : Exchange × List BinaryResponse}

theorem AllValid.thins (h : x.AllValid) (ht : Thins x x') : x'.AllValid := by
  intro π o ho
  obtain ⟨o', ho', hl⟩ := ht π o ho
  have hv := h π o' ho'
  refine ⟨hl.ne_zero hv.remaining, ?_, ?_⟩
  · rw [hl.price]
    exact hv.price
  · rw [hl.orderId]
    exact hv.orderId

/-- An order that is not filled has something left, if it had something to begin with. -/
theorem rest_ne_zero {locate : UInt64} {o : OrderInfo} (hopen : o.status = .opened)
    (hq : o.remainingQty ≠ 0) (hs : (x.takerAfterMatch locate o).status ≠ .filled) :
    (x.takerAfterMatch locate o).remainingQty ≠ 0 := by
  intro hz
  -- With nothing left and not filled, there was no trade, so there was nothing before.
  have hnone : (x.fills locate o).trades = [] := by
    by_contra hne
    exact hs ((taker_filled_iff _ hopen).mpr ⟨hne, hz⟩)
  have hsum : (x.fills locate o).rest.toNat
      + ((x.fills locate o).trades.map fun t => t.2.toNat).sum = o.remainingQty.toNat :=
    greedy_rest_toNat _
  rw [hnone, show (x.fills locate o).rest = 0 from hz] at hsum
  exact hq (UInt32.toNat_inj.mp hsum.symm)

theorem Submitted.allValid {locate : UInt64} {o : OrderInfo} (h : Submitted keep x locate o r)
    (hv : x.AllValid) (hopen : o.status = .opened) (ho : o.Valid) : r.1.AllValid := by
  have hmatched : (x.matched locate o).AllValid := hv.thins (thins_matched x locate o)
  cases h with
  | filled _ => exact hmatched
  | dropped _ _ _ => exact hmatched
  | rested hs _ _ =>
      intro π y hy
      rcases mem_enter.mp hy with ⟨-, rfl⟩ | hy
      · exact ⟨rest_ne_zero hopen ho.remaining hs, ho.price, ho.orderId⟩
      · exact hmatched π y hy

/-- What the checks of `processAdd` leave of a DAY order. -/
theorem valid_of_refusal {locate ref : UInt64} {side : Side} {price quantity : UInt32}
    {userId : UInt64} (h : refusal locate ref side price quantity userId .day = none) :
    (incoming ref side (MatchingEngine.limitPrice .day side price) quantity userId).Valid := by
  have hmarket : MatchingEngine.isMarket .day price = false := rfl
  obtain ⟨-, -, hprice, hquantity, -, href⟩ := refusal_eq_none_iff.mp h
  refine ⟨hquantity, ?_, href⟩
  show MatchingEngine.limitPrice .day side price ≠ 0
  rw [MatchingEngine.limitPrice, hmarket]
  exact fun hz => hprice ⟨hmarket, hz⟩

/-- A call keeps the orders valid. -/
theorem Does.allValid (h : Does keep x c r) (hx : x.Proper) (hv : x.AllValid)
    (hc : x.Brings c) : r.1.AllValid := by
  cases h with
  | refused _ _ _ => exact hv
  | cancelled _ | usedUp _ _ => exact hv.thins (thins_remove x _ _)
  | reduced ho hlt => exact hv.thins (thins_reduce hx ho hlt)
  | added hok _ hr =>
      obtain rfl : _ = OrderTif.day := hc
      exact hr.allValid hv rfl (valid_of_refusal hok)
  | replaced ho hr =>
      obtain ⟨hid, hprice, hquantity⟩ := hc (by rw [ho]; simp)
      exact hr.allValid (hv.thins (thins_remove x _ _)) rfl ⟨hquantity, hprice, hid⟩

end

end Exchange

/-! ### Messages -/

/-- A call as the server issues it: the owner of an order is its reference, and new orders
are DAY orders. -/
def Call.FromItch : Call → Prop
  | .add _ ref _ _ _ userId tif => userId = ref ∧ tif = .day
  | .cancel _ ref userId => userId = ref
  | .cancelShares _ ref _ userId => userId = ref
  | .replace _ oldRef _ _ _ _ userId => userId = oldRef

namespace TcpServer

/-- A replace message that names an order the index finds brings a reference, a price that
is not 0 in cents, and shares. -/
def BringsOrder (s : TcpServer) (msg : List UInt8) : Prop :=
  ∀ locate ref newRef shares price,
    (s.itchParser.feed msg).2 = some (.replace locate ref newRef shares price) →
    s.engine.index.find ref ≠ some none → 0 < newRef ∧ 0 < price ∧ 0 < shares

section
variable {s : TcpServer} {msg : List UInt8} {c : Call}

theorem fromItch_of_callOf (h : s.callOf msg = some c) : c.FromItch := by
  obtain ⟨ev, -, hev⟩ := Option.bind_eq_some_iff.mp h
  cases ev with
  | add =>
      obtain rfl := Option.some.inj hev
      exact ⟨rfl, rfl⟩
  | delete | cancel =>
      obtain rfl := Option.some.inj hev
      rfl
  | replace =>
      simp only [callOfEvent] at hev
      split at hev
      · obtain rfl := Option.some.inj hev
        rfl
      · exact absurd hev (by simp)
  | book => exact absurd hev (by simp [callOfEvent])

/-- A message that brings what a replacement needs. -/
theorem BringsOrder.brings (hb : s.BringsOrder msg) (h : s.callOf msg = some c) :
    s.engine.abs.Brings c := by
  have hitch := fromItch_of_callOf h
  cases c with
  | add => exact hitch.2
  | cancel => trivial
  | cancelShares => trivial
  | replace locate ref newRef side price quantity userId =>
      intro _
      obtain ⟨ev, hfeed, hev⟩ := Option.bind_eq_some_iff.mp h
      cases ev with
      | add | delete | cancel | book => exact absurd hev (by simp [callOfEvent])
      | replace l old new shares p =>
          simp only [callOfEvent] at hev
          split at hev
          · rename_i slot hfind
            simp only [Option.some.injEq, Call.replace.injEq] at hev
            obtain ⟨-, rfl, rfl, -, rfl, rfl, -⟩ := hev
            obtain ⟨hid, hprice, hshares⟩ := hb l _ _ _ _ hfeed (by rw [hfind]; simp)
            exact ⟨(UInt64.ne_of_lt hid).symm, (UInt32.ne_of_lt hprice).symm,
              (UInt32.ne_of_lt hshares).symm⟩
          · exact absurd hev (by simp)

/-- Calls of messages keep the owner of an order its reference. -/
theorem own_of_does {keep : Bool} {x : Exchange} {r : Exchange × List BinaryResponse}
    (hx : x.Proper) (hdoes : Exchange.Does keep x c r) (hitch : c.FromItch)
    (hown : ∀ π, ∀ o ∈ x.queues π, o.userId = o.orderId) :
    ∀ π, ∀ o ∈ r.1.queues π, o.userId = o.orderId := by
  intro π o ho
  rcases hdoes.mem hx ho with ⟨o', ho', hl⟩ | ⟨-, hnew, htaker⟩
  · rw [hl.userId, hl.orderId]
    exact hown π o' ho'
  · -- The taker of a message is the reference it brings in.
    cases c with
    | add =>
        rw [← Option.some.inj hnew, ← Option.some.inj htaker]
        exact hitch.1
    | cancel | cancelShares => exact absurd hnew (by simp [Call.newRef?])
    | replace => rw [← Option.some.inj hnew, ← Option.some.inj htaker]

/-- What holds of the engine in every run whose replaces bring an order. -/
structure Sound (s : TcpServer) : Prop where
  inv : s.engine.Inv
  valid : s.engine.abs.AllValid
  uncrossed : s.engine.abs.Uncrossed
  -- The owner of an order is its reference, so no two orders have the same owner.
  own : ∀ π, ∀ o ∈ s.engine.abs.queues π, o.userId = o.orderId

/-- What callers promise here: references are unique while resting, calls go to the right
book, and replaces bring an order. -/
def Complies (_ : List (List UInt8 × List BinaryResponse)) (s : TcpServer)
    (msg : List UInt8) : Prop :=
  s.Admits msg ∧ s.BringsOrder msg

/-- A message keeps the orders valid, and what it trades has a quantity. -/
theorem Sound.step {h : List (List UInt8 × List BinaryResponse)} {s' : TcpServer}
    {out : List BinaryResponse} (hs : s.Sound) (hp : Complies h s msg)
    (hstep : s.processItchMessage msg = some (s', out)) :
    s'.Sound ∧ ∀ t, .trade t ∈ out → 0 < t.quantity := by
  obtain ⟨s'', out', heq, hinv, hcase⟩ := step_of_admits hs.inv hp.1
  rw [hstep, Option.some.injEq, Prod.mk.injEq] at heq
  obtain ⟨rfl, rfl⟩ := heq
  rcases hcase with ⟨habs, -, hquiet⟩ | ⟨c, keep, hc, habs⟩
  · refine ⟨⟨hinv, ?_, ?_, ?_⟩, fun t ht => absurd ht (hquiet.no_trade t)⟩
    · exact habs ▸ hs.valid
    · exact habs ▸ hs.uncrossed
    · exact habs ▸ hs.own
  · have hdoes : Exchange.Does keep s.engine.abs c (s'.engine.abs, out) :=
      habs ▸ Exchange.step_does keep _ c
    have hproper := hs.inv.proper
    refine ⟨⟨hinv, hdoes.allValid hproper hs.valid (hp.2.brings hc),
      hdoes.uncrossed hproper hs.uncrossed, own_of_does hproper hdoes (fromItch_of_callOf hc)
        hs.own⟩, fun t ht => ?_⟩
    obtain ⟨u, π, -, y, hy, -, -, hq⟩ := hdoes.trade hproper ht
    exact UInt32.pos_iff_ne_zero.mpr (hq (hs.valid π y hy).remaining)

end

end TcpServer

/-! ### Reports -/

/-- Price and volume of a side in a report. -/
def TopOfBook.top (t : TopOfBook) : BookSide → UInt32 × UInt32
  | .bid => (t.bidPrice, t.bidVolume)
  | .ask => (t.askPrice, t.askVolume)

namespace MatchingEngine

/-- The report reads the first level of a side. -/
theorem top_getBook (e : MatchingEngine) {locate : UInt64} (hl : ¬ kMaxLocate ≤ locate)
    (d : BookSide) :
    (e.getBook locate).2.top d = OrderBook.topLevel ((e.levelsOf locate).levels d) := by
  simp only [getBook, if_neg hl, levelsOf]
  cases e.books locate <;> cases d <;> rfl

/-- The report of a side: the price of the first order, and the volume of the orders at
that price. -/
theorem top_eq {e : MatchingEngine} (h : e.Inv) {locate : UInt64} (hl : ¬ kMaxLocate ≤ locate)
    (d : BookSide) :
    (e.slots (locate, d) = [] ∧ (e.getBook locate).2.top d = (0, 0)) ∨
      ∃ i, (e.slots (locate, d)).head? = some i ∧
        (e.pool.storage i).price = ((e.getBook locate).2.top d).1 ∧
        ((e.getBook locate).2.top d).2 = (((e.slots (locate, d)).filter fun j =>
          (e.pool.storage j).price = ((e.getBook locate).2.top d).1).map fun j =>
            (e.pool.storage j).remainingQty).sum := by
  have hrep : EntriesRep e.pool.storage d ((e.levelsOf locate).levels d).entries :=
    h.levels (locate, d)
  have hslots : e.slots (locate, d)
      = entrySlots e.pool.storage ((e.levelsOf locate).levels d).entries := rfl
  rw [top_getBook e hl, hslots]
  unfold OrderBook.topLevel
  cases hes : ((e.levelsOf locate).levels d).entries with
  | nil => exact Or.inl ⟨rfl, rfl⟩
  | cons entry es =>
      obtain ⟨price, lvl⟩ := entry
      have hmem : (price, lvl) ∈ ((e.levelsOf locate).levels d).entries := by
        rw [hes]
        exact List.mem_cons_self
      have hlevel := hrep _ hmem
      have hfilter := hrep.slots_eq_filter (SortedMap.mem_entries_iff.mp hmem)
      obtain ⟨i, rest, hi⟩ := List.exists_cons_of_ne_nil hlevel.nonempty
      rw [hes] at hfilter
      have hprice := (hlevel.orders i (by rw [hi]; exact List.mem_cons_self)).2
      refine Or.inr ⟨i, ?_, hprice, ?_⟩
      · rw [entrySlots_cons, hi]
        rfl
      · rw [← hfilter]
        exact hlevel.total

end MatchingEngine

namespace TcpServer

/-- A bid lies below every ask of its book: otherwise both would belong to one owner, and
owners are references. -/
theorem Sound.bid_lt_ask {s : TcpServer} (hs : s.Sound) {locate : UInt64} {i j : UInt32}
    (hi : i ∈ s.engine.slots (locate, .bid)) (hj : j ∈ s.engine.slots (locate, .ask)) :
    (s.engine.pool.storage i).price < (s.engine.pool.storage j).price := by
  have hbid : s.engine.pool.info i ∈ s.engine.abs.queues (locate, .bid) :=
    List.mem_map.mpr ⟨i, hi, rfl⟩
  have hask : s.engine.pool.info j ∈ s.engine.abs.queues (locate, .ask) :=
    List.mem_map.mpr ⟨j, hj, rfl⟩
  by_contra hcross
  have huser := hs.uncrossed _ _ hbid _ hask (hs.valid _ _ hbid).remaining
    (hs.valid _ _ hask).remaining (UInt32.not_lt.mp hcross)
  rw [hs.own _ _ hbid, hs.own _ _ hask] at huser
  have hplace := (hs.inv.proper.refs _ _ _ _ hbid hask huser).1
  exact absurd (congrArg Prod.snd hplace) (by simp)

/-- No empty or priceless orders. In every run of messages in which references are unique
while resting, calls are addressed to the right books and a replace of a resting order brings
a reference, a price and shares, every resting order has all three, every trade frame has a
quantity, and a report of a book shows a bid below the ask and volumes of orders that have
something left. -/
theorem no_empty_orders {c : Nat} {metrics : Option IOCounters} {wal : Option WalWriter}
    {tradePool : Option TradePool} {e₀ : MatchingEngine} {p : ItchParser}
    {h : List (List UInt8 × List BinaryResponse)} {s : TcpServer}
    (h₀ : MatchingEngine.ofCapacity c metrics wal tradePool = some e₀)
    (t : Trace processItchMessage Complies ⟨e₀, p⟩ h s) :
    (∀ π, ∀ i ∈ s.engine.slots π, 0 < (s.engine.pool.storage i).remainingQty ∧
      0 < (s.engine.pool.storage i).price ∧ 0 < (s.engine.pool.storage i).orderId) ∧
    (∀ x ∈ h, ∀ trade, .trade trade ∈ x.2 → 0 < trade.quantity) ∧
    ∀ locate : UInt16, let report := (s.engine.getBook locate.toUInt64).2
      (∀ d, s.engine.slots (locate.toUInt64, d) ≠ [] →
        ∃ i ∈ s.engine.slots (locate.toUInt64, d),
          (s.engine.pool.storage i).price = (report.top d).1 ∧
          0 < (s.engine.pool.storage i).remainingQty ∧
          (report.top d).2 = (((s.engine.slots (locate.toUInt64, d)).filter fun j =>
            (s.engine.pool.storage j).price = (report.top d).1).map fun j =>
              (s.engine.pool.storage j).remainingQty).sum) ∧
      (report.askPrice ≠ 0 → report.bidPrice < report.askPrice) := by
  obtain ⟨hs, htrades⟩ : s.Sound ∧ ∀ x ∈ h, ∀ trade, .trade trade ∈ x.2 → 0 < trade.quantity := by
    refine t.invariant (fun h s => s.Sound ∧ ∀ x ∈ h, ∀ trade, .trade trade ∈ x.2 →
      0 < trade.quantity) ⟨⟨MatchingEngine.Inv.start h₀, ?_, ?_, ?_⟩, by simp⟩
      fun h s msg s' out _ ⟨hs, htrades⟩ hp hstep => ?_
    · rw [MatchingEngine.abs_ofCapacity h₀]
      exact fun π o ho => absurd ho List.not_mem_nil
    · rw [MatchingEngine.abs_ofCapacity h₀]
      exact fun _ b hb => absurd hb List.not_mem_nil
    · rw [MatchingEngine.abs_ofCapacity h₀]
      exact fun π o ho => absurd ho List.not_mem_nil
    · obtain ⟨hs', hout⟩ := hs.step hp hstep
      refine ⟨hs', fun x hx => ?_⟩
      rcases List.mem_append.mp hx with hx | hx
      · exact htrades x hx
      · rw [List.mem_singleton.mp hx]
        exact hout
  have hvalid : ∀ π, ∀ i ∈ s.engine.slots π, (s.engine.pool.info i).Valid :=
    fun π i hi => hs.valid π _ (List.mem_map.mpr ⟨i, hi, rfl⟩)
  refine ⟨fun π i hi => ?_, htrades, fun locate => ⟨fun d hne => ?_, fun hask => ?_⟩⟩
  · have hv := hvalid π i hi
    exact ⟨UInt32.pos_iff_ne_zero.mpr hv.remaining, UInt32.pos_iff_ne_zero.mpr hv.price,
      UInt64.pos_iff_ne_zero.mpr hv.orderId⟩
  · rcases MatchingEngine.top_eq hs.inv (not_kMaxLocate_le locate) d with
      ⟨hnil, -⟩ | ⟨i, hi, hprice, hvolume⟩
    · exact absurd hnil hne
    · have hmem := List.mem_of_head? hi
      exact ⟨i, hmem, hprice, UInt32.pos_iff_ne_zero.mpr (hvalid _ i hmem).remaining, hvolume⟩
  · rcases MatchingEngine.top_eq hs.inv (not_kMaxLocate_le locate) .ask with
      ⟨-, hzero⟩ | ⟨j, hj, hpj, -⟩
    · exact absurd (congrArg Prod.fst hzero) hask
    · rcases MatchingEngine.top_eq hs.inv (not_kMaxLocate_le locate) .bid with
        ⟨-, hzero⟩ | ⟨i, hi, hpi, -⟩
      · rw [show (s.engine.getBook locate.toUInt64).2.bidPrice = 0 from congrArg Prod.fst hzero]
        exact UInt32.pos_iff_ne_zero.mpr hask
      · rw [← show _ = (s.engine.getBook locate.toUInt64).2.bidPrice from hpi,
          ← show _ = (s.engine.getBook locate.toUInt64).2.askPrice from hpj]
        exact hs.bid_lt_ask (List.mem_of_head? hi) (List.mem_of_head? hj)

/-- A bid of 5 at 100 and an ask of 5 at 101; the ask is replaced by zero shares at 90. It
rests there, and the report is crossed. The next bid at 90 trades a quantity of zero with
it. -/
theorem replace_rests_empty : ∃ e₀ s s' outs out,
    MatchingEngine.ofCapacity 4 none none none = some e₀ ∧
    run processItchMessage ⟨e₀, {}⟩ [addMessage 1 66 5 10000, addMessage 2 83 5 10100,
      replaceMessage 2 3 0 9000] = some (s, outs) ∧
    (s.engine.slots (0, .ask)).map (fun i => ((s.engine.pool.storage i).orderId,
      (s.engine.pool.storage i).price, (s.engine.pool.storage i).remainingQty)) = [(3, 90, 0)] ∧
    (s.engine.getBook 0).2 = { bidPrice := 100, bidVolume := 5, askPrice := 90, askVolume := 0
                               locate := 0 } ∧
    s.processItchMessage (addMessage 4 66 1 9000) = some (s', out) ∧
    .trade ⟨0, 3, .sell, 90, 0⟩ ∈ out := by
  have hrun : ((MatchingEngine.ofCapacity 4 none none none).bind fun e₀ =>
      (run dispatch e₀ [.add 0 1 .buy 5 100, .add 0 2 .sell 5 101, .replace 0 2 3 0 90]).bind
        fun r => (dispatch r.1 (.add 0 4 .buy 1 90)).map fun r' =>
          ((r.1.slots (0, .ask)).map (fun i => ((r.1.pool.storage i).orderId,
            (r.1.pool.storage i).price, (r.1.pool.storage i).remainingQty)),
          (r.1.getBook 0).2, r'.2))
      = some ([(3, 90, 0)], { bidPrice := 100, bidVolume := 5, askPrice := 90, askVolume := 0
                              locate := 0 }, [.trade ⟨0, 3, .sell, 90, 0⟩, .ok 4]) := by
    decide +kernel
  simp only [Option.bind_eq_some_iff, Option.map_eq_some_iff, Prod.mk.injEq] at hrun
  obtain ⟨e₀, h₀, ⟨e, outs⟩, he, ⟨e', out⟩, he', hslots, hbook, rfl⟩ := hrun
  have hevents : List.Forall₂ (fun msg ev => ∀ p, ItchParser.feed p msg = (p, some ev))
      [addMessage 1 66 5 10000, addMessage 2 83 5 10100, replaceMessage 2 3 0 9000]
      [.add 0 1 .buy 5 100, .add 0 2 .sell 5 101, .replace 0 2 3 0 90] :=
    .cons (fun _ => rfl) (.cons (fun _ => rfl) (.cons (fun _ => rfl) .nil))
  refine ⟨e₀, ⟨e, {}⟩, ⟨e', {}⟩, outs, [.trade ⟨0, 3, .sell, 90, 0⟩, .ok 4], h₀, ?_, hslots,
    hbook, ?_, List.mem_cons_self⟩
  · rw [run_of_feed hevents, he]
    rfl
  · rw [processItchMessage_of_feed (.add 0 4 .buy 1 90) rfl, he']
    rfl

/-- An ask that is replaced by one with a reference, a price and shares. -/
theorem no_empty_orders_replace : ∃ e₀ s outs,
    MatchingEngine.ofCapacity 2 none none none = some e₀ ∧
    run processItchMessage ⟨e₀, {}⟩ [addMessage 1 83 5 10000, replaceMessage 1 2 3 9900]
      = some (s, outs) ∧
    (s.engine.slots (0, .ask)).map (fun i => (s.engine.pool.storage i).orderId) = [2] ∧
    ∀ π, ∀ i ∈ s.engine.slots π, 0 < (s.engine.pool.storage i).remainingQty ∧
      0 < (s.engine.pool.storage i).price ∧ 0 < (s.engine.pool.storage i).orderId := by
  have hrun : ((MatchingEngine.ofCapacity 2 none none none).bind fun e₀ =>
      (dispatch e₀ (.add 0 1 .sell 5 100)).bind fun r₁ =>
      (dispatch r₁.1 (.replace 0 1 2 3 99)).map fun r₂ =>
        (callOfEvent r₁.1 (.replace 0 1 2 3 99),
          (r₂.1.slots (0, .ask)).map fun i => (r₂.1.pool.storage i).orderId))
      = some (some (.replace 0 1 2 .sell 99 3 1), [2]) := by
    decide +kernel
  simp only [Option.bind_eq_some_iff, Option.map_eq_some_iff, Prod.mk.injEq] at hrun
  obtain ⟨e₀, h₀, ⟨e₁, out₁⟩, he₁, ⟨e₂, out₂⟩, he₂, hcall, hslots⟩ := hrun
  have hstep₁ : processItchMessage ⟨e₀, {}⟩ (addMessage 1 83 5 10000) = some (⟨e₁, {}⟩, out₁) := by
    rw [processItchMessage_of_feed (.add 0 1 .sell 5 100) rfl, he₁]
    rfl
  have hstep₂ : processItchMessage ⟨e₁, {}⟩ (replaceMessage 1 2 3 9900)
      = some (⟨e₂, {}⟩, out₂) := by
    rw [processItchMessage_of_feed (.replace 0 1 2 3 99) rfl, he₂]
    rfl
  have hfirst : ∀ {π : Place} {o : OrderInfo}, o ∈ e₁.abs.queues π → π.1 = 0 ∧ o.orderId = 1 := by
    intro π o ho
    have t : Trace MatchingEngine.exec MatchingEngine.Admissible e₀
        [(.add 0 1 .sell 100 5 1 .day, out₁)] e₁ :=
      .snoc .nil (MatchingEngine.admissible_start h₀ _) he₁
    obtain ⟨x, hx, hl, hid, -⟩ := MatchingEngine.mem_of_trace h₀ t ho
    obtain rfl := List.mem_singleton.mp hx
    exact ⟨hl, (Option.some.inj hid).symm⟩
  have hp₁ : Complies [] ⟨e₀, {}⟩ (addMessage 1 83 5 10000) := by
    refine ⟨fun c _ => MatchingEngine.admissible_start h₀ c, fun l r n q p hev => ?_⟩
    exact absurd (show some (ItchEvent.add 0 1 .sell 5 100) = _ from hev) (by simp)
  have hp₂ : Complies [(addMessage 1 83 5 10000, out₁)] ⟨e₁, {}⟩ (replaceMessage 1 2 3 9900) := by
    refine ⟨fun c hc => ?_, fun l r n q p hev _ => ?_⟩
    · rw [show callOf ⟨e₁, {}⟩ (replaceMessage 1 2 3 9900) = _ from hcall, Option.some.injEq] at hc
      subst hc
      refine ⟨Or.inr fun π o ho => ?_, Exchange.routed_of_only fun π o ho => (hfirst ho).1⟩
      rw [(hfirst ho).2]
      decide
    · have hev' : some (ItchEvent.replace 0 1 2 3 99) = some (.replace l r n q p) := hev
      simp only [Option.some.injEq, ItchEvent.replace.injEq] at hev'
      obtain ⟨-, -, rfl, rfl, rfl⟩ := hev'
      decide
  have t := (Trace.nil.snoc hp₁ hstep₁).snoc hp₂ hstep₂
  exact ⟨e₀, ⟨e₂, {}⟩, _, h₀, t.run_eq, hslots, (no_empty_orders h₀ t).1⟩

end TcpServer

end NebulaX
