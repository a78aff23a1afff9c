import NebulaX.Proofs.Rounds

/-!
# `NebulaX.Proofs.Replica`: the answers tell everything

The trade frames of a match, applied one after the other, turn the queue it walked into the queue it
left (`greedy_queue_eq_foldl`), and the taker into what is left of it (`takerAfterMatch_eq_foldl`).
The frame at the end tells the outcomes of `Does` apart as far as the books are concerned
(`Does.replica`). By induction over the run the copy is exact (`replica_exact`).
-/

set_option autoImplicit false

namespace NebulaX

open NebulaX.Lib

/-! ### The trades of a match -/

section
variable {d : BookSide} {u : UInt64} {limit rest : UInt32} {q : List OrderInfo}

namespace BookReplica

theorem traded_cons_of_ne {o : OrderInfo} {ref : UInt64} (hne : o.orderId ≠ ref) (quantity : UInt32)
    (q : List OrderInfo) : traded ref quantity (o :: q) = o :: traded ref quantity q := by
  simp [traded, hne]

/-- A trade with an order that is not there does nothing. -/
theorem traded_of_not_mem {ref : UInt64} (h : ∀ o ∈ q, o.orderId ≠ ref) (quantity : UInt32) :
    traded ref quantity q = q := by
  induction q with
  | nil => rfl
  | cons o q ih =>
      rw [traded_cons_of_ne (h o List.mem_cons_self),
        ih fun y hy => h y (List.mem_cons_of_mem o hy)]

/-- A trade with the order in front. -/
theorem traded_cons_self {o : OrderInfo} (h : ∀ y ∈ q, y.orderId ≠ o.orderId) (quantity : UInt32) :
    traded o.orderId quantity (o :: q)
      = if o.remainingQty = quantity then q else o.filledBy quantity :: q := by
  have hq := traded_of_not_mem h quantity
  rw [traded] at hq ⊢
  rw [List.filterMap_cons, if_pos rfl]
  split <;> simp_all

/-- Trades with orders behind the one in front. -/
theorem foldl_traded_cons {o : OrderInfo} {ts : List (OrderInfo × UInt32)}
    (h : ∀ t ∈ ts, o.orderId ≠ t.1.orderId) (q : List OrderInfo) :
    ts.foldl (fun q t => traded t.1.orderId t.2 q) (o :: q)
      = o :: ts.foldl (fun q t => traded t.1.orderId t.2 q) q := by
  induction ts generalizing q with
  | nil => rfl
  | cons t ts ih =>
      rw [List.foldl_cons, List.foldl_cons, traded_cons_of_ne (h t List.mem_cons_self),
        ih fun t' ht' => h t' (List.mem_cons_of_mem t ht')]

end BookReplica

open BookReplica in
/-- The queue after a match is the queue before it with the trades made one after the other. -/
theorem greedy_queue_eq_foldl (hnd : (q.map OrderInfo.orderId).Nodup) :
    (greedy d u limit rest q).queue
      = (greedy d u limit rest q).trades.foldl (fun q t => traded t.1.orderId t.2 q) q := by
  induction q generalizing rest with
  | nil => rfl
  | cons o q ih =>
      obtain ⟨hout, hnd'⟩ := List.nodup_cons.mp hnd
      have hne : ∀ y ∈ q, y.orderId ≠ o.orderId :=
        fun y hy e => hout (List.mem_map.mpr ⟨y, hy, e⟩)
      -- what the walk does behind `o` does not touch `o`
      have hbehind : ∀ (o' : OrderInfo) (rest : UInt32), o'.orderId = o.orderId →
          ∀ t ∈ (greedy d u limit rest q).trades, o'.orderId ≠ t.1.orderId :=
        fun o' rest hid t ht e => hne t.1 (mem_of_mem_trades ht).1 (e.symm.trans hid)
      by_cases hr : rest = 0
      · subst hr
        rw [greedy_zero]
        rfl
      · by_cases hs : Skips u o
        · rw [greedy_cons_of_skips hs, foldl_traded_cons (hbehind o rest rfl), ih hnd']
        · by_cases hb : d.Better limit o.price
          · rw [greedy_cons_of_beyond hs hb]
            rfl
          · rw [greedy_cons_of_trade hr hs hb]
            simp only [List.foldl_cons]
            rw [traded_cons_self hne, ih hnd']
            split
            · rfl
            · rw [foldl_traded_cons (hbehind (o.filledBy _) _ rfl)]

/-- What is left of the taker and what it traded add up, also modulo `2 ^ 32`. -/
theorem greedy_rest_add (q : List OrderInfo) :
    (greedy d u limit rest q).rest + ((greedy d u limit rest q).trades.map Prod.snd).sum
      = rest := by
  fun_induction greedy d u limit rest q with
  | case1 => simp
  | case2 => simp
  | case3 rest o q hr hs r ih => exact ih
  | case4 => simp
  | case5 rest o q hr hs hb quantity r ih =>
      simp only [List.map_cons, List.sum_cons]
      rw [UInt32.add_comm quantity, ← UInt32.add_assoc, ih, UInt32.sub_add_cancel]

/-- An order after trades made one after the other. -/
theorem foldl_filledBy (o : OrderInfo) (ts : List UInt32) :
    ts.foldl OrderInfo.filledBy o
      = { o with
          remainingQty := o.remainingQty - ts.sum
          filledQty := o.filledQty + ts.sum
          status := if ts = [] then o.status else .partiallyFilled } := by
  induction ts generalizing o with
  | nil => simp
  | cons n ts ih =>
      rw [List.foldl_cons, ih, List.sum_cons]
      simp only [OrderInfo.filledBy, reduceCtorEq, if_false, ite_self, OrderInfo.mk.injEq, true_and,
        and_true]
      constructor <;> grind

end

/-! ### One call -/

namespace BookReplica

/-- The trades on one queue. -/
theorem foldl_applyTrade (m : BookReplica) (locate : UInt64) (d : BookSide)
    (ts : List (OrderInfo × UInt32)) :
    (ts.map fun t => ({ locate := locate, orderRef := t.1.orderId, side := d.side
                        price := t.1.price, quantity := t.2 } : Trade)).foldl applyTrade m
      = Function.update m (locate, d)
        (ts.foldl (fun q t => traded t.1.orderId t.2 q) (m (locate, d))) := by
  have hd : d.side.bookSide = d := by cases d <;> rfl
  induction ts generalizing m with
  | nil => simp
  | cons t ts ih =>
      rw [List.map_cons, List.foldl_cons, ih, applyTrade, hd, Function.update_self,
        Function.update_idem]
      rfl

theorem followAll_snoc (m : BookReplica) (h : List (Call × List BinaryResponse)) (c : Call)
    (out : List BinaryResponse) : m.followAll (h ++ [(c, out)]) = (m.followAll h).follow c out := by
  simp [followAll]

end BookReplica

namespace Exchange

variable {keep : Bool} {x : Exchange} {locate : UInt64} {o : OrderInfo}
variable {r : Exchange × List BinaryResponse}

/-- The taker after the trades it is told of, if it is not filled. -/
theorem takerAfterMatch_eq_foldl (hs : (x.takerAfterMatch locate o).status ≠ .filled) :
    x.takerAfterMatch locate o
      = ((x.fills locate o).trades.map Prod.snd).foldl OrderInfo.filledBy o := by
  have hrest : (x.fills locate o).rest + ((x.fills locate o).trades.map Prod.snd).sum
      = o.remainingQty := greedy_rest_add _
  rw [foldl_filledBy]
  rw [takerAfterMatch, Fills.taker] at hs ⊢
  simp only [List.map_eq_nil_iff, OrderInfo.mk.injEq, true_and] at hs ⊢
  refine ⟨by grind, by grind, ?_⟩
  by_cases hnil : (x.fills locate o).trades = []
  · simp [hnil]
  · rw [if_neg hnil] at hs ⊢
    rw [if_neg hnil]
    by_cases hz : (x.fills locate o).rest = 0
    · exact absurd (by rw [if_pos hz]) hs
    · rw [if_neg hz]

/-- The answer to a submission tells what it did. -/
theorem Submitted.replica (h : Submitted keep x locate o r) (hx : x.Proper) :
    BookReplica.submit x.queues locate o r.2 = r.1.queues := by
  have hqueue : (x.fills locate o).queue = (x.fills locate o).trades.foldl
      (fun q t => BookReplica.traded t.1.orderId t.2 q)
      (x.queues (locate, o.side.bookSide.opposite)) :=
    greedy_queue_eq_foldl (hx.nodup _)
  have hmatched : ∀ tail : List BinaryResponse, (∀ t, .trade t ∉ tail) →
      (reportedTrades (x.tradeFrames locate o ++ tail)).foldl BookReplica.applyTrade x.queues
        = (x.matched locate o).queues := by
    intro tail htail
    rw [reportedTrades_append _ htail, tradeFrames, reportedTrades_frames,
      BookReplica.foldl_applyTrade, matched_queues, hqueue]
  have hok : ∀ tail : List BinaryResponse, .ok o.orderId ∈ x.tradeFrames locate o ++ tail ↔
      .ok o.orderId ∈ tail := by
    intro tail
    simp [tradeFrames, Fills.frames]
  rw [BookReplica.submit]
  cases h with
  | filled hs =>
      have htail : ∀ t, BinaryResponse.trade t ∉ [BinaryResponse.filled o.orderId] := by simp
      simp only [hok, List.mem_singleton, reduceCtorEq, if_false]
      exact hmatched _ htail
  | dropped tail htail hs =>
      have hno : (∀ t, BinaryResponse.trade t ∉ tail) ∧ BinaryResponse.ok o.orderId ∉ tail := by
        rcases htail with rfl | ⟨code, -, rfl⟩ <;> simp
      simp only [hok, hno.2, if_false]
      exact hmatched _ hno.1
  | rested hs hside hfree =>
      have htail : ∀ t, BinaryResponse.trade t ∉ [BinaryResponse.ok o.orderId] := by simp
      have htaker : (reportedTrades (x.tradeFrames locate o ++ [.ok o.orderId])).foldl
          (fun o t => o.filledBy t.quantity) o = x.takerAfterMatch locate o := by
        rw [reportedTrades_append _ htail, tradeFrames, reportedTrades_frames,
          takerAfterMatch_eq_foldl hs, List.foldl_map, List.foldl_map]
      simp only [hok, List.mem_singleton, if_true, hmatched _ htail, htaker]
      rfl

/-- The answer to a call tells what it did. -/
theorem Does.replica {c : Call} (h : Does keep x c r) (hx : x.Proper) :
    BookReplica.follow x.queues c r.2 = r.1.queues := by
  have hdrop : ∀ {locate ref userId : UInt64} {o : OrderInfo},
      x.owned locate ref userId = some o →
      BookReplica.drop x.queues ref = (x.remove locate o).queues := by
    intro locate ref userId o ho
    obtain ⟨-, -, hid, -⟩ := mem_of_owned ho
    funext π
    rw [hx.remove_queues (hx.mem_of_owned ho), hid]
    rfl
  cases h with
  | refused code hcode hsub =>
      cases c with
      | add => simp [BookReplica.follow, BookReplica.submit, reportedTrades]
      | cancel | cancelShares => simp [BookReplica.follow]
      | replace =>
          rw [hcode (by simp [Call.named?]), BookReplica.follow, if_pos rfl]
  | cancelled ho | usedUp ho hle =>
      simp only [BookReplica.follow, List.mem_singleton, if_true]
      exact hdrop ho
  | reduced ho hlt =>
      rename_i locate ref userId shares o
      obtain ⟨-, -, hid, -⟩ := mem_of_owned ho
      simp only [BookReplica.follow, List.mem_singleton, reduceCtorEq, if_false, if_true]
      funext π
      simp only [reduce, hid]
      by_cases hπ : π = (locate, o.side.bookSide)
      · subst hπ
        rw [Function.update_self]
      · -- the reference rests nowhere else
        rw [Function.update_of_ne hπ, Queue.modify]
        refine (List.map_congr_left fun y hy => if_neg fun hy' => hπ ?_).trans (List.map_id _)
        exact (hx.refs _ _ y o hy (hx.mem_of_owned ho) (hy'.trans hid.symm)).1
  | added hok hsub hr => exact hr.replica hx
  | replaced ho hr =>
      rw [BookReplica.follow, if_neg hr.out_ne, hdrop ho]
      exact hr.replica (hx.remove ..)

end Exchange

namespace MatchingEngine

/-- **The answers tell everything.** A client that starts from the books of a state the engine
reaches, at the beginning or later, and follows the calls and their answers from there, has the
engine's books after every call: the same orders in the same places, with all their quantities. -/
theorem replica_exact {c : Nat} {metrics : Option IOCounters} {wal : Option WalWriter}
    {tradePool : Option TradePool} {e₀ e₁ e : MatchingEngine}
    {h₁ h : List (Call × List BinaryResponse)}
    (h₀ : ofCapacity c metrics wal tradePool = some e₀) (t₁ : Trace exec Admissible e₀ h₁ e₁)
    (t : Trace exec Admissible e₁ h e) : BookReplica.followAll e₁.abs.queues h = e.abs.queues := by
  have hinv : e₁.Inv := (Inv.start h₀).of_trace t₁
  have hi : e.Inv ∧ BookReplica.followAll e₁.abs.queues h = e.abs.queues := by
    refine t.invariant (fun h e => e.Inv ∧ BookReplica.followAll e₁.abs.queues h = e.abs.queues)
      ⟨hinv, rfl⟩ ?_
    intro h e c e' out _ ⟨hi, hsame⟩ hp hstep
    have hto := stepsTo_of_exec hi hp hstep
    have hdoes := Exchange.step_does (!e.drops c) e.abs c
    rw [← hto.abs] at hdoes
    refine ⟨hto.inv, ?_⟩
    rw [BookReplica.followAll_snoc, hsame]
    exact hdoes.replica hi.proper
  exact hi.2

/-- A client joins when a buy of 5 rests, and sees a sell of 2 trade with it. -/
theorem replica_exact_join : ∃ e₀ e₁ e, ∃ out₁ out₂ : List BinaryResponse,
    ofCapacity 4 none none none = some e₀ ∧
    e₀.exec (.add 0 1 .buy 100 5 7 .day) = some (e₁, out₁) ∧
    e₁.exec (.add 0 2 .sell 100 2 8 .day) = some (e, out₂) ∧
    reportedTrades out₂ = [⟨0, 1, .buy, 100, 2⟩] ∧
    BookReplica.followAll e₁.abs.queues [(.add 0 2 .sell 100 2 8 .day, out₂)]
      = e.abs.queues := by
  have hrun : ((ofCapacity 4 none none none).bind fun e₀ =>
      (e₀.exec (.add 0 1 .buy 100 5 7 .day)).bind fun r₁ =>
      (r₁.1.exec (.add 0 2 .sell 100 2 8 .day)).map fun r₂ => reportedTrades r₂.2)
      = some [⟨0, 1, .buy, 100, 2⟩] := by
    decide +kernel
  simp only [Option.bind_eq_some_iff, Option.map_eq_some_iff] at hrun
  obtain ⟨e₀, h₀, ⟨e₁, out₁⟩, hs₁, ⟨e, out₂⟩, hs₂, htrades⟩ := hrun
  have t₁ : Trace exec Admissible e₀ [(.add 0 1 .buy 100 5 7 .day, out₁)] e₁ :=
    Trace.nil.snoc (admissible_start h₀ _) hs₁
  have t : Trace exec Admissible e₁ [(.add 0 2 .sell 100 2 8 .day, out₂)] e :=
    Trace.nil.snoc (admissible_add h₀ t₁ (by simp [Call.newRef?])) hs₂
  exact ⟨e₀, e₁, e, out₁, out₂, h₀, hs₁, hs₂, htrades, replica_exact h₀ t₁ t⟩

end MatchingEngine

end NebulaX
