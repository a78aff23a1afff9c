import Mathlib.Algebra.BigOperators.Group.List.Basic
import Mathlib.Data.UInt
import Mathlib.Tactic.Abel
import NebulaX.Spec.Exchange

/-!
# `NebulaX.Proofs.Greedy`: the matching rule

What the walk of `greedy` does, queue part by queue part. The engine restarts its scan at
the head of the queue after every trade and meets the taker's own orders again each time;
`greedy_append_of_skips` is why that makes no difference.
-/

set_option autoImplicit false

namespace NebulaX

variable {d : BookSide} {u : UInt64} {limit rest : UInt32}
variable {o : OrderInfo} {q : List OrderInfo} {t : OrderInfo × UInt32}
@[simp] theorem greedy_nil : greedy d u limit rest [] = ⟨[], [], rest⟩ := rfl

/-- A taker with nothing left takes nothing. -/
@[simp] theorem greedy_zero (q : List OrderInfo) : greedy d u limit 0 q = ⟨[], q, 0⟩ := by
  cases q <;> simp [greedy]

/-- The taker's own orders are passed over. -/
theorem greedy_cons_of_skips (h : Skips u o) (q : List OrderInfo) :
    greedy d u limit rest (o :: q)
      = { greedy d u limit rest q with queue := o :: (greedy d u limit rest q).queue } := by
  by_cases hr : rest = 0
  · subst hr
    simp
  · simp [greedy, hr, h]

/-- A run of own orders in front of a queue stays in front of it. -/
theorem greedy_append_of_skips {own : List OrderInfo} (h : ∀ o ∈ own, Skips u o)
    (q : List OrderInfo) :
    greedy d u limit rest (own ++ q)
      = { greedy d u limit rest q with queue := own ++ (greedy d u limit rest q).queue } := by
  induction own with
  | nil => rfl
  | cons o own ih =>
      rw [List.cons_append, greedy_cons_of_skips (h o (by simp)),
        ih fun x hx => h x (by simp [hx])]
      rfl

/-- A queue of the taker's own orders offers nothing. -/
theorem greedy_of_skips {own : List OrderInfo} (h : ∀ o ∈ own, Skips u o) :
    greedy d u limit rest own = ⟨[], own, rest⟩ := by
  rw [← List.append_nil own, greedy_append_of_skips h, greedy_nil]

/-- A price beyond the limit ends the match. -/
theorem greedy_cons_of_beyond (h : ¬ Skips u o) (hb : d.Better limit o.price) (q : List OrderInfo) :
    greedy d u limit rest (o :: q) = ⟨[], o :: q, rest⟩ := by
  by_cases hr : rest = 0
  · subst hr
    simp
  · simp [greedy, hr, h, hb]

/-- A trade. -/
theorem greedy_cons_of_trade (hr : rest ≠ 0) (h : ¬ Skips u o) (hb : ¬ d.Better limit o.price)
    (q : List OrderInfo) :
    greedy d u limit rest (o :: q) =
      { trades := (o, min rest o.remainingQty)
          :: (greedy d u limit (rest - min rest o.remainingQty) q).trades
        queue := if o.remainingQty = min rest o.remainingQty
          then (greedy d u limit (rest - min rest o.remainingQty) q).queue
          else o.filledBy (min rest o.remainingQty)
            :: (greedy d u limit (rest - min rest o.remainingQty) q).queue
        rest := (greedy d u limit (rest - min rest o.remainingQty) q).rest } := by
  simp [greedy, hr, h, hb]

/-- The smaller of two quantities is one of them; the other one is not used up. -/
theorem sub_min_eq_zero_of_ne {a b : UInt32} (h : b ≠ min a b) : a - min a b = 0 := by
  have hmin : min a b = if a ≤ b then a else b := rfl
  by_cases hab : a ≤ b
  · rw [hmin, if_pos hab, sub_self]
  · rw [hmin, if_neg hab] at h
    exact absurd rfl h

/-- A resting order that is not used up had more than what was left of the taker. -/
theorem min_lt_of_ne {a b : UInt32} (h : b ≠ min a b) : min a b = a ∧ a < b := by
  have hmin : min a b = if a ≤ b then a else b := rfl
  by_cases hab : a ≤ b
  · rw [hmin, if_pos hab] at h ⊢
    exact ⟨rfl, UInt32.lt_of_le_of_ne hab fun e => h e.symm⟩
  · rw [hmin, if_neg hab] at h
    exact absurd rfl h

/-- Every order left in the queue is an old one, untouched or partly filled. -/
theorem mem_greedy_queue (h : o ∈ (greedy d u limit rest q).queue) :
    o ∈ q ∨ ∃ o' ∈ q, ∃ n, n ≠ 0 ∧ n < o'.remainingQty ∧ o = o'.filledBy n := by
  induction q generalizing rest with
  | nil => simp at h
  | cons x q ih =>
      have hcons : ∀ rest', o ∈ (greedy d u limit rest' q).queue →
          o ∈ x :: q ∨ ∃ o' ∈ x :: q, ∃ n, n ≠ 0 ∧ n < o'.remainingQty ∧ o = o'.filledBy n := by
        intro rest' h
        rcases ih h with h | ⟨o', ho', hn⟩
        · exact Or.inl (by simp [h])
        · exact Or.inr ⟨o', by simp [ho'], hn⟩
      by_cases hr : rest = 0
      · subst hr
        rw [greedy_zero] at h
        exact Or.inl h
      · by_cases hs : Skips u x
        · rw [greedy_cons_of_skips hs] at h
          rcases List.mem_cons.mp h with rfl | h
          · exact Or.inl (by simp)
          · exact hcons rest h
        · by_cases hb : d.Better limit x.price
          · rw [greedy_cons_of_beyond hs hb] at h
            exact Or.inl h
          · rw [greedy_cons_of_trade hr hs hb] at h
            simp only at h
            split at h
            · exact hcons _ h
            · rename_i hne
              obtain ⟨hmin, hlt⟩ := min_lt_of_ne hne
              rcases List.mem_cons.mp h with rfl | h
              · exact Or.inr ⟨x, by simp, _, by rw [hmin]; exact hr, by rw [hmin]; exact hlt, rfl⟩
              · exact hcons _ h

/-- The trades of the walk are with orders of the queue, of other users. -/
theorem mem_of_mem_trades (h : t ∈ (greedy d u limit rest q).trades) : t.1 ∈ q ∧ ¬ Skips u t.1 := by
  fun_induction greedy d u limit rest q with
  | case1 => simp at h
  | case2 => simp at h
  | case3 rest o q hr hs r ih =>
      obtain ⟨hmem, hskip⟩ := ih h
      exact ⟨List.mem_cons_of_mem o hmem, hskip⟩
  | case4 => simp at h
  | case5 rest o q hr hs hb quantity r ih =>
      rcases List.mem_cons.mp h with rfl | h
      · exact ⟨List.mem_cons_self, hs⟩
      · obtain ⟨hmem, hskip⟩ := ih h
        exact ⟨List.mem_cons_of_mem o hmem, hskip⟩

/-- The references of the queue afterwards were there before. -/
theorem orderId_mem_of_mem_queue {y : OrderInfo} (h : y ∈ (greedy d u limit rest q).queue) :
    ∃ o ∈ q, y.orderId = o.orderId := by
  rcases mem_greedy_queue h with h | ⟨o, ho, n, -, -, rfl⟩
  · exact ⟨y, h, rfl⟩
  · exact ⟨o, ho, rfl⟩

/-- What a match does to one order of the queue. -/
inductive Fate (r : Fills) (o : OrderInfo) : Prop
  | kept (hno : ∀ t ∈ r.trades, t.1.orderId ≠ o.orderId) (hmem : o ∈ r.queue)
  | partly (n : UInt32) (hn : n ≠ 0) (hlt : n < o.remainingQty)
      (htrades : r.trades.filter (fun t => t.1.orderId = o.orderId) = [(o, n)])
      (hmem : o.filledBy n ∈ r.queue)
  | usedUp (htrades : r.trades.filter (fun t => t.1.orderId = o.orderId) = [(o, o.remainingQty)])
      (hgone : ∀ y ∈ r.queue, y.orderId ≠ o.orderId)

/-- The fate of an order does not depend on what is done to another one in front of it. -/
theorem Fate.cons {r : Fills} (h : Fate r o) (trades : List (OrderInfo × UInt32))
    (front : List OrderInfo) {left : UInt32} (ht : ∀ t ∈ trades, t.1.orderId ≠ o.orderId)
    (hf : ∀ y ∈ front, y.orderId ≠ o.orderId) :
    Fate ⟨trades ++ r.trades, front ++ r.queue, left⟩ o := by
  have hnil : trades.filter (fun t => t.1.orderId = o.orderId) = [] :=
    List.filter_eq_nil_iff.mpr fun t hmem => by simpa using ht t hmem
  cases h with
  | kept hno hmem =>
      refine .kept (fun t hmem' => ?_) (List.mem_append_right _ hmem)
      rcases List.mem_append.mp hmem' with h | h
      · exact ht t h
      · exact hno t h
  | partly n hn hlt htrades hmem =>
      exact .partly n hn hlt (by rw [List.filter_append, hnil, htrades]; rfl)
        (List.mem_append_right _ hmem)
  | usedUp htrades hgone =>
      refine .usedUp (by rw [List.filter_append, hnil, htrades]; rfl) fun y hy => ?_
      rcases List.mem_append.mp hy with h | h
      · exact hf y h
      · exact hgone y h

/-- Every order of the queue is kept, filled in part, or used up. -/
theorem greedy_fate (hnd : (q.map OrderInfo.orderId).Nodup) (ho : o ∈ q) :
    Fate (greedy d u limit rest q) o := by
  fun_induction greedy d u limit rest q with
  | case1 => simp at ho
  | case2 x q => exact .kept (by simp) ho
  | case3 rest x q hr hs r ih =>
      obtain ⟨hout, hnd'⟩ := List.nodup_cons.mp hnd
      rcases List.mem_cons.mp ho with rfl | ho
      · refine .kept (fun t ht e => hout ?_) List.mem_cons_self
        exact List.mem_map.mpr ⟨t.1, (mem_of_mem_trades ht).1, e⟩
      · have hne : x.orderId ≠ o.orderId := fun e => hout (List.mem_map.mpr ⟨o, ho, e.symm⟩)
        exact (ih hnd' ho).cons [] [x] (by simp) (by simpa using hne)
  | case4 rest x q hr hs hb => exact .kept (by simp) ho
  | case5 rest x q hr hs hb n r ih =>
      obtain ⟨hout, hnd'⟩ := List.nodup_cons.mp hnd
      rcases List.mem_cons.mp ho with rfl | ho
      · -- The order in front is the one that trades.
        have hrest : r.trades.filter (fun t => t.1.orderId = o.orderId) = [] := by
          rw [List.filter_eq_nil_iff]
          intro t ht
          have hne : t.1.orderId ≠ o.orderId := fun e =>
            hout (List.mem_map.mpr ⟨t.1, (mem_of_mem_trades ht).1, e⟩)
          simpa using hne
        by_cases hu : o.remainingQty = n
        · refine .usedUp ?_ fun y hy => ?_
          · rw [List.filter_cons_of_pos (by simp), hrest, ← hu]
          · rw [if_pos hu] at hy
            obtain ⟨y', hy', hid⟩ := orderId_mem_of_mem_queue hy
            exact fun e => hout (List.mem_map.mpr ⟨y', hy', hid.symm.trans e⟩)
        · obtain ⟨hmin, hlt⟩ : n = rest ∧ rest < o.remainingQty := min_lt_of_ne hu
          refine .partly n ?_ ?_ ?_ ?_
          · exact hmin ▸ hr
          · exact hmin ▸ hlt
          · rw [List.filter_cons_of_pos (by simp), hrest]
          · rw [if_neg hu]
            exact List.mem_cons_self
      · have hne : x.orderId ≠ o.orderId := fun e => hout (List.mem_map.mpr ⟨o, ho, e.symm⟩)
        have hfate := ih hnd' ho
        split
        · exact hfate.cons [(x, n)] [] (by simpa using hne) (by simp)
        · exact hfate.cons [(x, n)] [x.filledBy n] (by simpa using hne)
            (by simpa [OrderInfo.filledBy] using hne)

/-- A trade takes no more than the order has, and nothing only from an order with nothing. -/
theorem trade_quantity (h : t ∈ (greedy d u limit rest q).trades) :
    t.2 ≤ t.1.remainingQty ∧ (t.1.remainingQty ≠ 0 → t.2 ≠ 0) := by
  fun_induction greedy d u limit rest q with
  | case1 => simp at h
  | case2 => simp at h
  | case3 rest o q hr hs r ih => exact ih h
  | case4 => simp at h
  | case5 rest o q hr hs hb quantity r ih =>
      rcases List.mem_cons.mp h with rfl | h
      · have hmin : quantity = if rest ≤ o.remainingQty then rest else o.remainingQty := rfl
        rw [hmin]
        split
        · exact ⟨‹_›, fun _ => hr⟩
        · exact ⟨UInt32.le_refl _, id⟩
      · exact ih h

/-- A taker with something left has used up every order it traded with. -/
theorem usedUp_of_rest (hrest : (greedy d u limit rest q).rest ≠ 0)
    (ht : t ∈ (greedy d u limit rest q).trades) :
    t.1.remainingQty = t.2 := by
  fun_induction greedy d u limit rest q with
  | case1 | case2 => exact absurd ht List.not_mem_nil
  | case3 rest o q hr hs r ih => exact ih hrest ht
  | case4 => exact absurd ht List.not_mem_nil
  | case5 rest o q hr hs hb quantity r ih =>
      rcases List.mem_cons.mp ht with rfl | ht
      · -- an order that is not used up has used up the taker
        by_contra hu
        refine hrest ?_
        show (greedy d u limit (rest - quantity) q).rest = 0
        rw [show rest - quantity = 0 from sub_min_eq_zero_of_ne hu, greedy_zero]
      · exact ih hrest ht

/-- A price that is not better than one beyond the limit is beyond it as well. -/
theorem better_of_not_better {a b c : UInt32} (hab : d.Better a b) (hcb : ¬ d.Better c b) :
    d.Better a c := by
  rcases trichotomous_of d.Better b c with h | rfl | h
  · exact trans_of d.Better hab h
  · exact hab
  · exact absurd h hcb

/-- When the taker has something left, every order that is left is its own or beyond its
limit. -/
theorem skips_or_beyond (hq : Queue.Sorted d q) (hrest : (greedy d u limit rest q).rest ≠ 0)
    {y : OrderInfo} (hy : y ∈ (greedy d u limit rest q).queue) :
    Skips u y ∨ d.Better limit y.price := by
  fun_induction greedy d u limit rest q with
  | case1 => simp at hy
  | case2 => exact absurd rfl hrest
  | case3 rest o q hr hs r ih =>
      rcases List.mem_cons.mp hy with rfl | hy
      · exact Or.inl hs
      · exact ih (List.pairwise_cons.mp hq).2 hrest hy
  | case4 rest o q hr hs hb =>
      rcases List.mem_cons.mp hy with rfl | hy
      · exact Or.inr hb
      · exact Or.inr (better_of_not_better hb ((List.pairwise_cons.mp hq).1 y hy))
  | case5 rest o q hr hs hb quantity r ih =>
      -- An order that is not used up has used up the taker.
      by_cases hu : o.remainingQty = quantity
      · rw [if_pos hu] at hy
        exact ih (List.pairwise_cons.mp hq).2 hrest hy
      · have hz : rest - quantity = 0 := sub_min_eq_zero_of_ne hu
        refine absurd ?_ hrest
        show (greedy d u limit (rest - quantity) q).rest = 0
        rw [hz, greedy_zero]

/-- What was traded and what is left of the taker add up. -/
theorem greedy_rest_toNat (q : List OrderInfo) :
    (greedy d u limit rest q).rest.toNat
      + ((greedy d u limit rest q).trades.map fun t => t.2.toNat).sum = rest.toNat := by
  fun_induction greedy d u limit rest q with
  | case1 => simp
  | case2 => simp
  | case3 rest o q hr hs r ih => exact ih
  | case4 => simp
  | case5 rest o q hr hs hb quantity r ih =>
      have hle : quantity ≤ rest := Std.min_le_left
      change r.rest.toNat + (r.trades.map fun t => t.2.toNat).sum = _ at ih
      rw [UInt32.toNat_sub_of_le _ _ hle] at ih
      rw [UInt32.le_iff_toNat_le] at hle
      simp only [List.map_cons, List.sum_cons]
      omega

/-- A match without a trade leaves the taker as it was. -/
theorem greedy_rest_of_trades_nil (h : (greedy d u limit rest q).trades = []) :
    (greedy d u limit rest q).rest = rest := by
  have hsum : (greedy d u limit rest q).rest.toNat + _ = rest.toNat := greedy_rest_toNat q
  rw [h] at hsum
  exact UInt32.toNat_inj.mp hsum

/-- What others than the user offer at `limit` or better. -/
def offered (d : BookSide) (u : UInt64) (limit : UInt32) (q : List OrderInfo) : Nat :=
  ((q.filter fun o => ¬ Skips u o ∧ ¬ d.Better limit o.price).map fun o =>
    o.remainingQty.toNat).sum

/-- Nothing is offered behind a price beyond the limit. -/
theorem filter_cons_of_beyond (hq : Queue.Sorted d (o :: q)) (hb : d.Better limit o.price) :
    ((o :: q).filter fun o => ¬ Skips u o ∧ ¬ d.Better limit o.price) = [] := by
  rw [List.filter_eq_nil_iff]
  intro y hy
  rcases List.mem_cons.mp hy with rfl | hy
  · simp [hb]
  · simp [better_of_not_better hb ((List.pairwise_cons.mp hq).1 y hy)]

/-- A taker that is offered what it asks for is used up. -/
theorem greedy_rest_eq_zero (hq : Queue.Sorted d q) (h : rest.toNat ≤ offered d u limit q) :
    (greedy d u limit rest q).rest = 0 := by
  induction q generalizing rest with
  | nil => exact UInt32.toNat_inj.mp (Nat.le_zero.mp h)
  | cons o q ih =>
      have hq' : Queue.Sorted d q := (List.pairwise_cons.mp hq).2
      by_cases hr : rest = 0
      · subst hr
        simp
      · by_cases hs : Skips u o
        · rw [greedy_cons_of_skips hs]
          simp only [offered, hs, not_true_eq_false, false_and, decide_false, Bool.false_eq_true,
            not_false_eq_true, List.filter_cons_of_neg] at h
          exact ih hq' h
        · by_cases hb : d.Better limit o.price
          · rw [offered, filter_cons_of_beyond hq hb] at h
            exact absurd (UInt32.toNat_inj.mp (Nat.le_zero.mp h)) hr
          · rw [greedy_cons_of_trade hr hs hb]
            refine ih hq' ?_
            have hle : min rest o.remainingQty ≤ rest := Std.min_le_left
            have hmin : (min rest o.remainingQty).toNat
                = min rest.toNat o.remainingQty.toNat := by
              show (if rest ≤ o.remainingQty then rest else o.remainingQty).toNat = _
              split
              · rename_i hlt
                exact (Nat.min_eq_left (UInt32.le_iff_toNat_le.mp hlt)).symm
              · rename_i hlt
                have := UInt32.lt_iff_toNat_lt.mp (UInt32.not_le.mp hlt)
                omega
            simp only [offered, hs, hb, not_false_eq_true, and_self, decide_true,
              List.filter_cons_of_pos, List.map_cons, List.sum_cons] at h
            rw [UInt32.toNat_sub_of_le _ _ hle, hmin]
            simp only [offered]
            omega

/-- One trade and the match after it: what the taker comes to. -/
theorem taker_of_trade (o : OrderInfo) (quantity : UInt32) (r : Fills) (t : OrderInfo × UInt32)
    (hr : r.trades = [] → r.rest = o.remainingQty - quantity) :
    r.taker { o with
        remainingQty := o.remainingQty - quantity
        filledQty := o.filledQty + quantity
        status := if o.remainingQty - quantity = 0 then .filled else .partiallyFilled }
      = Fills.taker { r with trades := t :: r.trades } o := by
  have hq : o.filledQty + quantity + (o.remainingQty - quantity - r.rest)
      = o.filledQty + (o.remainingQty - r.rest) := by abel
  by_cases ht : r.trades = []
  · simp [Fills.taker, ht, hr ht]
  · simp [Fills.taker, ht, hq]

/-- A taker that came in open is filled when a trade used it up. -/
theorem taker_filled_iff (r : Fills) (h : o.status = .opened) :
    (r.taker o).status = .filled ↔ r.trades ≠ [] ∧ r.rest = 0 := by
  simp only [Fills.taker]
  by_cases ht : r.trades = []
  · simp [ht, h]
  · by_cases hz : r.rest = 0
    · simp [ht, hz]
    · simp [ht, hz]

/-- A taker that came in open is open, partly filled or filled after the match. -/
theorem taker_status (r : Fills) (h : o.status = .opened) (hf : (r.taker o).status ≠ .filled) :
    (r.taker o).status = .opened ∨ (r.taker o).status = .partiallyFilled := by
  simp only [Fills.taker] at hf ⊢
  split
  · exact Or.inl h
  · rename_i ht
    rw [if_neg ht] at hf
    split
    · rename_i hz
      rw [if_pos hz] at hf
      exact absurd rfl hf
    · exact Or.inr rfl

namespace Exchange

variable {x : Exchange} {ref : UInt64}

/-- A match brings no reference into the books. -/
theorem Absent.matched (h : x.Absent ref) (locate : UInt64) (o : OrderInfo) :
    (x.matched locate o).Absent ref := by
  intro π y hy
  simp only [Exchange.matched, settled] at hy
  by_cases hπ : π = (locate, o.side.bookSide.opposite)
  · subst hπ
    rw [Function.update_self] at hy
    rcases mem_greedy_queue hy with hy | ⟨y', hy', n, -, -, rfl⟩
    · exact h _ y hy
    · exact h _ y' hy'
  · rw [Function.update_of_ne hπ] at hy
    exact h π y hy

/-- A removal brings no reference into the books. -/
theorem Absent.remove (h : x.Absent ref) (locate : UInt64) (o : OrderInfo) :
    (x.remove locate o).Absent ref := by
  intro π y hy
  simp only [Exchange.remove] at hy
  by_cases hπ : π = (locate, o.side.bookSide)
  · subst hπ
    rw [Function.update_self] at hy
    exact h _ y (List.mem_of_mem_filter hy)
  · rw [Function.update_of_ne hπ] at hy
    exact h π y hy

end Exchange

end NebulaX
