import NebulaX.Proofs.Conservation
import NebulaX.Proofs.Validity

/-!
# `NebulaX.Proofs.Terminal`: one answer per request

A client counts the frames that are no trades to pair answers with requests. Every message
that is an event is answered by its trades and one more frame, and every other message by
nothing (`one_terminal_per_request`).

What the last frame of a new order says is read off the match. The point is the error for
want of a slot: where something of the order is left, every order it traded with was used up
and has given its slot back, so an order that traded always finds one.
-/

set_option autoImplicit false

namespace NebulaX

open NebulaX.Lib

/-- Trades, and then one frame that is no trade. -/
def OneTerminal (out : List BinaryResponse) : Prop :=
  ∃ (trades : List Trade) (f : BinaryResponse), out = trades.map .trade ++ [f] ∧
    ∀ t, f ≠ .trade t

/-! ### The answer of the exchange -/

namespace Exchange

variable {x : Exchange} {keep : Bool} {locate : UInt64} {o : OrderInfo}

/-- The trades of an incoming order. -/
def tradesOf (x : Exchange) (locate : UInt64) (o : OrderInfo) : List Trade :=
  (x.fills locate o).trades.map fun t =>
    { locate := locate, orderRef := t.1.orderId, side := o.side.bookSide.opposite.side
      price := t.1.price, quantity := t.2 }

theorem map_trade_tradesOf (x : Exchange) (locate : UInt64) (o : OrderInfo) :
    (x.tradesOf locate o).map .trade = x.tradeFrames locate o := by
  rw [tradesOf, List.map_map]
  rfl

/-- The trades and what is left add up to the quantity. -/
theorem sum_tradesOf (x : Exchange) (locate : UInt64) (o : OrderInfo) :
    (x.takerAfterMatch locate o).remainingQty.toNat
      + ((x.tradesOf locate o).map fun t => t.quantity.toNat).sum = o.remainingQty.toNat := by
  rw [tradesOf, List.map_map]
  exact greedy_rest_toNat _

/-- The outcomes of an order that may rest, by its last frame. -/
inductive DayAnswer (x : Exchange) (locate : UInt64) (o : OrderInfo) (x' : Exchange) :
    BinaryResponse → Prop
  | filled (hs : (x.takerAfterMatch locate o).status = .filled)
      (hx' : x' = x.matched locate o) : DayAnswer x locate o x' (.filled o.orderId)
  | rested (keep : Bool) (hs : (x.takerAfterMatch locate o).status ≠ .filled)
      (hx' : x' = (x.matched locate o).enter keep locate (x.takerAfterMatch locate o)) :
      DayAnswer x locate o x' (.ok o.orderId)
  | full (hs : (x.takerAfterMatch locate o).status ≠ .filled)
      (hno : o.side = .invalid ∨ (x.matched locate o).free = 0)
      (hx' : x' = x.matched locate o) : DayAnswer x locate o x' (.error .poolFull)

/-- An order that may rest is answered by its trades and one frame. -/
theorem submitDay_answer (keep : Bool) (x : Exchange) (locate : UInt64) (o : OrderInfo) :
    ∃ f, (x.submitDay keep locate o).2 = (x.tradesOf locate o).map .trade ++ [f] ∧
      DayAnswer x locate o (x.submitDay keep locate o).1 f := by
  rw [map_trade_tradesOf]
  unfold submitDay
  by_cases hs : (x.takerAfterMatch locate o).status = .filled
  · have hs' : ((x.fills locate o).taker o).status = .filled := hs
    simp only [hs', if_true]
    exact ⟨_, rfl, .filled hs rfl⟩
  · have hs' : ¬ ((x.fills locate o).taker o).status = .filled := hs
    simp only [hs', if_false, Exchange.rest]
    split
    · rename_i hfull
      exact ⟨_, rfl, .full hs hfull rfl⟩
    · exact ⟨_, rfl, .rested keep hs rfl⟩

theorem DayAnswer.ne_trade {x' : Exchange} {f : BinaryResponse} (h : DayAnswer x locate o x' f)
    (t : Trade) : f ≠ .trade t := by
  cases h <;> simp

/-- Every call of a message is answered by trades and one frame. -/
theorem oneTerminal_step (keep : Bool) (x : Exchange) {c : Call} (hc : c.FromItch) :
    OneTerminal (x.step keep c).2 := by
  have hday : ∀ (y : Exchange) (locate : UInt64) (o : OrderInfo),
      OneTerminal (y.submitDay keep locate o).2 := by
    intro y locate o
    obtain ⟨f, hout, hf⟩ := submitDay_answer keep y locate o
    exact ⟨_, f, hout, hf.ne_trade⟩
  cases c with
  | add locate ref side price quantity userId tif =>
      obtain ⟨-, rfl⟩ := hc
      simp only [step, add]
      split
      · exact ⟨[], _, rfl, by simp⟩
      · exact hday _ _ _
  | cancel locate ref userId =>
      simp only [step, cancel]
      split <;> exact ⟨[], _, rfl, by simp⟩
  | cancelShares locate ref shares userId =>
      simp only [step, cancelShares]
      split
      · exact ⟨[], _, rfl, by simp⟩
      · split <;> exact ⟨[], _, rfl, by simp⟩
  | replace locate oldRef newRef side price quantity userId =>
      simp only [step, replace]
      split
      · exact ⟨[], _, rfl, by simp⟩
      · exact hday _ _ _

end Exchange

/-! ### The answer to a message -/

/-- What the last frame of a valid new order says: `quantity` was asked for, `trades` were
made, and `x'` is the exchange afterwards. -/
structure AddAnswer (ref : UInt64) (place : Place) (quantity : UInt32) (trades : List Trade)
    (f : BinaryResponse) (x' : Exchange) : Prop where
  kind : f = .filled ref ∨ f = .ok ref ∨ ∃ code, f = .error code
  filled : f = .filled ref ↔ (trades.map fun t => t.quantity.toNat).sum = quantity.toNat
  ok : f = .ok ref ↔ (trades.map fun t => t.quantity.toNat).sum < quantity.toNat ∧
    ∃ o ∈ x'.queues place, o.orderId = ref ∧ o.userId = ref ∧ o.remainingQty.toNat =
      quantity.toNat - (trades.map fun t => t.quantity.toNat).sum
  error : (∃ code, f = .error code) → trades = [] ∧ x'.Absent ref

/-- A valid new order of a message. -/
theorem Exchange.add_answer (keep : Bool) (x : Exchange) {locate ref : UInt64} {side : Side}
    {price quantity : UInt32} (hvalid : refusal locate ref side price quantity ref .day = none)
    (hfresh : x.Absent ref) :
    ∃ trades f, (x.add keep locate ref side price quantity ref .day).2
        = trades.map .trade ++ [f] ∧
      AddAnswer ref (locate, side.bookSide) quantity trades f
        (x.add keep locate ref side price quantity ref .day).1 := by
  obtain ⟨o, ho⟩ : ∃ o, o = incoming ref side (MatchingEngine.limitPrice .day side price)
    quantity ref := ⟨_, rfl⟩
  have hadd : x.add keep locate ref side price quantity ref .day = x.submitDay keep locate o := by
    simp only [add, hvalid, ho]
  have hopen : o.status = .opened := by rw [ho]; rfl
  have hid : o.orderId = ref := by rw [ho]; rfl
  have hqty : o.remainingQty = quantity := by rw [ho]; rfl
  have hpos : o.remainingQty ≠ 0 := ho ▸ (valid_of_refusal hvalid).remaining
  have hside : o.side ≠ .invalid := by
    rw [ho]
    exact (refusal_eq_none_iff.mp hvalid).2.1
  obtain ⟨f, hout, hf⟩ := submitDay_answer keep x locate o
  have hsum := sum_tradesOf x locate o
  rw [hqty] at hsum
  have hgone : (x.matched locate o).Absent ref := hfresh.matched locate o
  refine ⟨_, f, hadd ▸ hout, ?_⟩
  rw [hadd]
  -- what is left decides between filled and the rest
  have hleft : (x.takerAfterMatch locate o).status ≠ .filled →
      (x.takerAfterMatch locate o).remainingQty.toNat ≠ 0 := fun hs hz =>
    rest_ne_zero hopen hpos hs (UInt32.toNat_inj.mp hz)
  generalize (x.submitDay keep locate o).1 = x' at hf
  cases hf with
  | filled hs hx' =>
      have hz : (x.takerAfterMatch locate o).remainingQty.toNat = 0 := by
        rw [show (x.takerAfterMatch locate o).remainingQty = 0 from
          ((taker_filled_iff _ hopen).mp hs).2]
        rfl
      refine ⟨Or.inl (by rw [hid]), ?_, ?_, by simp⟩
      · simp only [hid, true_iff]
        omega
      · simp only [reduceCtorEq, false_iff, not_and]
        omega
  | rested keep hs hx' =>
      have hz := hleft hs
      refine ⟨Or.inr (Or.inl (by rw [hid])), ?_, ?_, by simp⟩
      · simp only [reduceCtorEq, false_iff]
        omega
      · simp only [hid, true_iff]
        refine ⟨by omega, x.takerAfterMatch locate o, ?_, hid, by rw [ho]; rfl, by omega⟩
        rw [hx']
        exact mem_enter.mpr (Or.inl ⟨by rw [ho]; rfl, rfl⟩)
  | full hs hno hx' =>
      have hz := hleft hs
      refine ⟨Or.inr (Or.inr ⟨_, rfl⟩), ?_, ?_, fun _ => ⟨?_, hx' ▸ hgone⟩⟩
      · simp only [reduceCtorEq, false_iff]
        omega
      · simp only [reduceCtorEq, false_iff, not_and, not_exists]
        intro _ y hy hy'
        exact absurd hy' (hgone _ y (hx' ▸ hy))
      · by_contra ht
        have hne : (x.fills locate o).trades ≠ [] := fun h => ht (by rw [tradesOf, h]; rfl)
        exact hno.elim hside (free_ne_zero_of_traded hopen hs hne)

namespace TcpServer

variable {s : TcpServer} {msg : List UInt8}

/-- Whether a message is an event does not depend on the symbols seen so far. -/
theorem feed_event (p : ItchParser) (msg : List UInt8) :
    (p.feed msg).2 = (ItchParser.feed {} msg).2 := by
  simp only [ItchParser.feed, apply_ite Prod.snd]

/-- The messages of a run are admitted at their time. -/
def Admitted (_ : List (List UInt8 × List BinaryResponse)) (s : TcpServer)
    (msg : List UInt8) : Prop :=
  s.Admits msg

/-- An admitted message is answered by trades and one frame if it is an event, and by nothing
otherwise. -/
theorem answer_of_admits (h : s.engine.Inv) (hp : s.Admits msg) :
    ∃ s' out, s.processItchMessage msg = some (s', out) ∧ s'.engine.Inv ∧
      (if (ItchParser.feed {} msg).2.isSome then OneTerminal out else out = []) ∧
      ∀ c, s.callOf msg = some c → ∃ keep, (s'.engine.abs, out) = s.engine.abs.step keep c := by
  obtain ⟨s', out, heq, hinv, hcase⟩ := step_of_admits h hp
  refine ⟨s', out, heq, hinv, ?_, ?_⟩
  · rw [← feed_event s.itchParser]
    rcases hcase with ⟨-, -, f, hf, rfl⟩ | ⟨c, keep, hc, hdone⟩
    · split
      · exact ⟨[], f, rfl, hf⟩
      · rfl
    · obtain ⟨ev, hev, -⟩ := Option.bind_eq_some_iff.mp hc
      rw [hev, Option.isSome_some, if_pos rfl, show out = _ from congrArg Prod.snd hdone]
      exact Exchange.oneTerminal_step keep _ (fromItch_of_callOf hc)
  · intro c hc
    rcases hcase with ⟨-, hnone, -⟩ | ⟨c', keep, hc', hdone⟩
    · exact absurd (hnone.symm.trans hc) (by simp)
    · obtain rfl := Option.some.inj (hc.symm.trans hc')
      exact ⟨keep, hdone⟩

/-- **Every request gets one terminal response.** In every run of messages from a state that
satisfies the invariant, if references are unique while resting and calls go to the right
books, every message that is an event was answered by its trades and one frame that is no
trade, and every other message by nothing. The next message is answered too; for a valid new
order and for a cancel of an order of its owner the frame is what became of the order. -/
theorem one_terminal_per_request {s₀ : TcpServer} {h : List (List UInt8 × List BinaryResponse)}
    (hinv : s₀.engine.Inv) (t : Trace processItchMessage Admitted s₀ h s) :
    (∀ x ∈ h, if (ItchParser.feed {} x.1).2.isSome then OneTerminal x.2 else x.2 = []) ∧
    ∀ msg, s.Admits msg → ∃ s' out, s.processItchMessage msg = some (s', out) ∧
      (if (ItchParser.feed {} msg).2.isSome then OneTerminal out else out = []) ∧
      (∀ locate ref side shares price,
        (ItchParser.feed {} msg).2 = some (.add locate ref side shares price) →
        ref ≠ 0 → price ≠ 0 → shares ≠ 0 → ∃ trades f, out = trades.map .trade ++ [f] ∧
          AddAnswer ref (locate.toUInt64, side.bookSide) shares trades f s'.engine.abs) ∧
      ∀ locate ref shares idx,
        (ItchParser.feed {} msg).2 = some (.cancel locate ref shares) →
        s.engine.index.find ref = some (some idx) → (s.engine.pool.storage idx).userId = ref →
        out = [if (s.engine.pool.storage idx).remainingQty ≤ shares then .cancelled ref
          else .ok ref] := by
  obtain ⟨hs, hall⟩ : s.engine.Inv ∧ ∀ x ∈ h,
      if (ItchParser.feed {} x.1).2.isSome then OneTerminal x.2 else x.2 = [] := by
    refine t.invariant (fun h s => s.engine.Inv ∧ ∀ x ∈ h,
      if (ItchParser.feed {} x.1).2.isSome then OneTerminal x.2 else x.2 = [])
      ⟨hinv, by simp⟩ fun h s msg s' out _ ⟨hs, hall⟩ hp hstep => ?_
    obtain ⟨s'', out', heq, hs', hout, -⟩ := answer_of_admits hs hp
    rw [hstep, Option.some.injEq, Prod.mk.injEq] at heq
    obtain ⟨rfl, rfl⟩ := heq
    refine ⟨hs', fun x hx => ?_⟩
    rcases List.mem_append.mp hx with hx | hx
    · exact hall x hx
    · rw [List.mem_singleton.mp hx]
      exact hout
  refine ⟨hall, fun msg hp => ?_⟩
  obtain ⟨s', out, heq, -, hout, hcall⟩ := answer_of_admits hs hp
  refine ⟨s', out, heq, hout, ?_, ?_⟩
  · intro locate ref side shares price hev href hprice hshares
    rw [← feed_event s.itchParser] at hev
    have hc : s.callOf msg = some (.add locate.toUInt64 ref side price shares ref .day) := by
      rw [callOf, hev]
      rfl
    obtain ⟨keep, hdone⟩ := hcall _ hc
    have hvalid : Exchange.refusal locate.toUInt64 ref side price shares ref .day = none := by
      have hside : side ≠ .invalid := by rcases side_of_feed hev with rfl | rfl <;> decide
      simp [Exchange.refusal, not_kMaxLocate_le, hside, href, hprice, hshares]
    obtain ⟨trades, f, hframes, hanswer⟩ :=
      Exchange.add_answer keep s.engine.abs hvalid (hp _ hc).1
    rw [show out = _ from congrArg Prod.snd hdone,
      show s'.engine.abs = _ from congrArg Prod.fst hdone]
    exact ⟨trades, f, hframes, hanswer⟩
  · intro locate ref shares idx hev hfind huser
    rw [← feed_event s.itchParser] at hev
    have hc : s.callOf msg = some (.cancelShares locate.toUInt64 ref shares ref) := by
      rw [callOf, hev]
      rfl
    obtain ⟨keep, hdone⟩ := hcall _ hc
    rw [show out = _ from congrArg Prod.snd hdone]
    rcases MatchingEngine.owned_eq hs (hp _ hc).2 with ⟨-, i, d, hfind', -, -, howned⟩ | ⟨-, hmiss⟩
    · obtain rfl : idx = i := by simpa [hfind] using hfind'
      simp only [Exchange.step, Exchange.cancelShares, howned]
      split
      · rename_i hle
        rw [if_pos (show (s.engine.pool.storage idx).remainingQty ≤ shares from hle)]
      · rename_i hle
        rw [if_neg (show ¬ (s.engine.pool.storage idx).remainingQty ≤ shares from hle)]
    · rcases hmiss with hl | hno | ⟨i, hfind', huser'⟩
      · exact absurd hl (not_kMaxLocate_le locate)
      · simp [hfind] at hno
      · obtain rfl : idx = i := by simpa [hfind] using hfind'
        exact absurd huser huser'

/-- An ask of 5 and then a bid of 8 at its price. -/
theorem one_terminal_per_request_partly : ∃ e₀ s out s' out',
    MatchingEngine.ofCapacity 2 none none none = some e₀ ∧
    processItchMessage ⟨e₀, {}⟩ (addMessage 1 83 5 10000) = some (s, out) ∧ OneTerminal out ∧
    processItchMessage s (addMessage 2 66 8 10000) = some (s', out') ∧
    ∃ trades f, out' = trades.map .trade ++ [f] ∧
      AddAnswer 2 (0, .bid) 8 trades f s'.engine.abs := by
  have hrun : ((MatchingEngine.ofCapacity 2 none none none).bind fun e₀ =>
      (dispatch e₀ (.add 0 1 .sell 5 100)).map Prod.snd) = some [.ok 1] := by
    decide +kernel
  simp only [Option.bind_eq_some_iff, Option.map_eq_some_iff] at hrun
  obtain ⟨e₀, h₀, ⟨e, out⟩, he, rfl⟩ := hrun
  have hstep : processItchMessage ⟨e₀, {}⟩ (addMessage 1 83 5 10000) = some (⟨e, {}⟩, [.ok 1]) := by
    rw [processItchMessage_of_feed (.add 0 1 .sell 5 100) rfl, he]
    rfl
  have hp : Admitted [] ⟨e₀, {}⟩ (addMessage 1 83 5 10000) :=
    fun c _ => MatchingEngine.admissible_start h₀ c
  have hp' : Admits ⟨e, {}⟩ (addMessage 2 66 8 10000) := by
    intro c hc
    obtain rfl : Call.add 0 2 .buy 100 8 2 .day = c := Option.some.inj hc
    have t : Trace MatchingEngine.exec MatchingEngine.Admissible e₀
        [(.add 0 1 .sell 100 5 1 .day, [.ok 1])] e :=
      .snoc .nil (MatchingEngine.admissible_start h₀ _) he
    exact MatchingEngine.admissible_add h₀ t (by decide)
  obtain ⟨hall, hnext⟩ := one_terminal_per_request (MatchingEngine.Inv.start h₀)
    (Trace.nil.snoc hp hstep)
  obtain ⟨s', out', hstep', -, hadd, -⟩ := hnext _ hp'
  exact ⟨e₀, ⟨e, {}⟩, [.ok 1], s', out', h₀, hstep, hall (addMessage 1 83 5 10000, [.ok 1])
    (List.mem_singleton.mpr rfl), hstep',
    hadd 0 2 .buy 8 100 rfl (by decide) (by decide) (by decide)⟩

end TcpServer

end NebulaX
