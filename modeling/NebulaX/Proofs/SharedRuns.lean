import NebulaX.Proofs.SharedRecovery

/-!
# `NebulaX.Proofs.SharedRuns`: when the array is enough to restore the book

`recoverFromShared` knows nothing but the array. Three things can go wrong. A removed order
leaves its id and its status in the slot, so it comes back. The orders enter the book in the order
of their slots, and a slot that was freed and taken again is early in the array however late its
order came. And a second recovery finds the orders that the first one moved twice: at the front,
where it wrote them, and where they were.

* `recoverFromShared_restores`: the book comes back as it was exactly if the state is
  `Recoverable`;
* `recoverFromShared_twice`: a second recovery changes nothing exactly if the live slots are an
  initial segment of the array.
-/

set_option autoImplicit false

namespace NebulaX

open NebulaX.Lib

/-! ### One recovery -/

/-- Orders of the same price stand in the order of their slots. -/
def SlotOrder (st : UInt32 → Order) (slots : List UInt32) : Prop :=
  slots.Pairwise fun i j => (st i).price = (st j).price → i < j

instance (st : UInt32 → Order) (slots : List UInt32) : Decidable (SlotOrder st slots) :=
  inferInstanceAs (Decidable (List.Pairwise _ _))

/-- Orders of the same price, price by price. -/
theorem slotOrder_iff (st : UInt32 → Order) (slots : List UInt32) :
    SlotOrder st slots ↔ ∀ price,
      (slots.filter fun i => (st i).price = price).Pairwise fun i j => i < j := by
  unfold SlotOrder
  simp only [List.pairwise_filter, decide_eq_true_eq]
  constructor
  · intro h price
    exact h.imp fun {i j} hij hi hj => hij (hi.trans hj.symm)
  · intro h
    rw [List.pairwise_iff_forall_sublist]
    intro i j hsub heq
    exact List.pairwise_iff_forall_sublist.mp (h (st j).price) hsub heq rfl

/-- The slots of an array of `c` slots that are live, of a side and of a price, in scan order. -/
def liveSlots (st : UInt32 → Order) (c : Nat) (d : BookSide) (price : UInt32) : List UInt32 :=
  ((List.range c).map UInt32.ofNat).filter fun i =>
    Live (st i).data ∧ (st i).side.bookSide = d ∧ (st i).price = price

section
variable {st : UInt32 → Order} {c : Nat} {d : BookSide} {price : UInt32} {i : UInt32}

theorem mem_liveSlots (hc : c ≤ 2 ^ 31) : i ∈ liveSlots st c d price ↔ i.toNat < c ∧
    Live (st i).data ∧ (st i).side.bookSide = d ∧ (st i).price = price := by
  unfold liveSlots
  rw [List.mem_filter, List.mem_map, decide_eq_true_eq]
  refine and_congr_left fun _ => ?_
  constructor
  · rintro ⟨n, hn, rfl⟩
    have hn := List.mem_range.mp hn
    rwa [toNat_ofNat_of_lt hc hn]
  · exact fun hi => ⟨i.toNat, List.mem_range.mpr hi, UInt32.ofNat_toNat⟩

theorem pairwise_liveSlots (hc : c ≤ 2 ^ 31) :
    (liveSlots st c d price).Pairwise fun i j => i < j := by
  refine List.Pairwise.filter _ (List.pairwise_map.mpr ?_)
  refine List.Pairwise.imp_of_mem ?_ (List.pairwise_lt_range (n := c))
  intro a b ha hb hab
  rw [UInt32.lt_iff_toNat_lt, toNat_ofNat_of_lt hc (List.mem_range.mp ha),
    toNat_ofNat_of_lt hc (List.mem_range.mp hb)]
  exact hab

/-- What is kept of an array, read off its live slots. -/
theorem kept_cells_filter (st : UInt32 → Order) (c : Nat) (d : BookSide) (price : UInt32) :
    ((kept Live (cells st) c).filter fun x =>
        x.1.side.bookSide = d ∧ x.1.price = price).map Prod.fst
      = (liveSlots st c d price).map fun i => (st i).toOrderInfo := by
  have hcells : (List.range c).map (cells st)
      = ((List.range c).map UInt32.ofNat).map fun i => (st i).data := by
    rw [List.map_map]
    rfl
  unfold kept liveSlots
  rw [hcells, List.filter_filter, List.filter_map, List.map_map]
  refine congrArg (List.map _) (List.filter_congr fun i _ => ?_)
  simp only [Function.comp_def, ← Bool.decide_and, decide_eq_decide]
  exact and_comm

end

namespace MatchingEngine

/-- The array alone tells the book: its live slots are the slots of the resting orders of book 0,
and within a price the slots are in serving order. -/
def Recoverable (e : MatchingEngine) : Prop :=
  (∀ i < e.pool.capacity, Live (cells e.pool.storage i) ↔
      UInt32.ofNat i ∈ e.slots (0, .bid) ++ e.slots (0, .ask)) ∧
    SlotOrder e.pool.storage (e.slots (0, .bid)) ∧ SlotOrder e.pool.storage (e.slots (0, .ask))

instance (e : MatchingEngine) : Decidable e.Recoverable :=
  inferInstanceAs (Decidable (_ ∧ _ ∧ _))

theorem mem_slots_zero {e : MatchingEngine} {i : UInt32} :
    i ∈ e.slots (0, .bid) ++ e.slots (0, .ask) ↔ ∃ d, i ∈ e.slots (0, d) := by
  rw [List.mem_append]
  constructor
  · rintro (h | h)
    · exact ⟨_, h⟩
    · exact ⟨_, h⟩
  · rintro ⟨d, h⟩
    cases d with
    | bid => exact Or.inl h
    | ask => exact Or.inr h

/-- `Recoverable`, side by side and price by price. -/
theorem Inv.recoverable_iff {e : MatchingEngine} (h : e.Inv) :
    e.Recoverable ↔ ∀ d price,
      (∀ i, i ∈ liveSlots e.pool.storage e.pool.capacity d price ↔
        i ∈ (e.slots (0, d)).filter fun i => (e.pool.storage i).price = price) ∧
      ((e.slots (0, d)).filter fun i => (e.pool.storage i).price = price).Pairwise
        fun i j => i < j := by
  obtain ⟨free, hpool⟩ := h.slots
  have hc := hpool.capacity
  have hlt : ∀ d i, i ∈ e.slots (0, d) → i.toNat < e.pool.capacity := fun d => hpool.lt (0, d)
  have hside : ∀ d i, i ∈ e.slots (0, d) → (e.pool.storage i).side.bookSide = d :=
    fun d i hi => h.bookSide_eq hi
  simp only [mem_liveSlots hc, List.mem_filter, decide_eq_true_eq]
  constructor
  · rintro ⟨hlive, hbid, hask⟩ d price
    refine ⟨fun i => ⟨?_, ?_⟩, ?_⟩
    · rintro ⟨hi, hl, hs, hp⟩
      have hmem := (hlive i.toNat hi).mp (by rwa [cells, UInt32.ofNat_toNat])
      rw [UInt32.ofNat_toNat, mem_slots_zero] at hmem
      obtain ⟨d', hd'⟩ := hmem
      -- The side of the order tells the side of the book.
      obtain rfl : d' = d := (hside d' i hd').symm.trans hs
      exact ⟨hd', hp⟩
    · rintro ⟨hi, hp⟩
      have hl := (hlive i.toNat (hlt d i hi)).mpr (by
        rw [UInt32.ofNat_toNat, mem_slots_zero]
        exact ⟨d, hi⟩)
      rw [cells, UInt32.ofNat_toNat] at hl
      exact ⟨hlt d i hi, hl, hside d i hi, hp⟩
    · cases d with
      | bid => exact (slotOrder_iff _ _).mp hbid price
      | ask => exact (slotOrder_iff _ _).mp hask price
  · intro hall
    refine ⟨fun n hn => ?_, (slotOrder_iff _ _).mpr fun p => (hall .bid p).2,
      (slotOrder_iff _ _).mpr fun p => (hall .ask p).2⟩
    have hn' : (UInt32.ofNat n).toNat < e.pool.capacity := by rwa [toNat_ofNat_of_lt hc hn]
    rw [mem_slots_zero]
    constructor
    · intro hl
      exact ⟨_, (((hall _ _).1 _).mp ⟨hn', hl, rfl, rfl⟩).1⟩
    · rintro ⟨d, hd⟩
      exact (((hall d _).1 _).mpr ⟨hd, rfl⟩).2.1

section
variable {e d₀ d : MatchingEngine} {metrics : Option IOCounters} {wal : Option WalWriter}
variable {tradePool : Option TradePool}

/-- The recovered book against the book that was. -/
theorem Inv.sameBook_iff_recoverable (h : e.Inv)
    (hd : Packs (cells e.pool.storage) e.pool.capacity e.pool.capacity d) :
    SameBook 0 d e ↔ e.Recoverable := by
  obtain ⟨free, hpool⟩ := h.slots
  rw [sameBook_iff hd.booksRep h.toBooksRep, h.recoverable_iff]
  refine forall_congr' fun s => forall_congr' fun price => ?_
  have hleft : (levelData d.levelsOf d.pool.storage (0, s) price).map Prod.fst
      = (liveSlots e.pool.storage e.pool.capacity s price).map fun i =>
          (e.pool.storage i).toOrderInfo := by
    rw [← kept_cells_filter, hd.orders]
    simp only [true_and]
  have hright : (levelData e.levelsOf e.pool.storage (0, s) price).map Prod.fst
      = ((e.slots (0, s)).filter fun i => (e.pool.storage i).price = price).map fun i =>
          (e.pool.storage i).toOrderInfo := by
    rw [levelData, List.filter_map, List.map_map]
    rfl
  rw [hleft, hright]
  refine map_eq_map_iff (pairwise_liveSlots hpool.capacity) ((h.nodup (0, s)).filter _)
    (fun i hi j hj hij => ?_) fun i hi hmem => ?_
  · exact h.refs (0, s) (0, s) i j (List.mem_filter.mp hi).1 (List.mem_filter.mp hj).1
      (congrArg OrderInfo.orderId hij)
  · -- A live slot with the same order: liveness is a matter of the order alone.
    obtain ⟨j, hj, hij⟩ := List.mem_map.mp hmem
    obtain ⟨hi, hp⟩ := List.mem_filter.mp hi
    have hl := ((mem_liveSlots hpool.capacity).mp hj).2.1
    refine (mem_liveSlots hpool.capacity).mpr ⟨hpool.lt (0, s) i hi, ?_, h.bookSide_eq hi,
      by simpa using hp⟩
    unfold Live Order.data at hl ⊢
    simp only [hij] at hl
    exact hl

/-- Recovery from shared memory. After every admissible run, recovery by a new engine over the
array the run left comes back with the same book 0 exactly if the state is `Recoverable`. -/
theorem recoverFromShared_restores {c : Nat} {metrics' : Option IOCounters}
    {wal' : Option WalWriter} {tradePool' : Option TradePool} {e₀ : MatchingEngine}
    {h : List (Call × List BinaryResponse)}
    (h₀ : ofCapacity c metrics' wal' tradePool' = some e₀) (t : Trace exec Admissible e₀ h e)
    (hd₀ : ofPool (.ofStorage e.pool.storage e.pool.capacity false) metrics wal tradePool
      = some d₀) :
    (∃ d, d₀.recoverFromShared e.pool.capacity = some d ∧ SameBook 0 d e) ↔ e.Recoverable := by
  have hinv := (Inv.start h₀).of_trace t
  constructor
  · rintro ⟨d, hd, hsame⟩
    exact (hinv.sameBook_iff_recoverable (packs_of_recoverFromShared hd₀ hd)).mp hsame
  · intro hrec
    obtain ⟨free, hpool⟩ := hinv.slots
    -- The live slots are slots of resting orders, and those have distinct ids.
    have hids : ∀ i < e.pool.capacity, ∀ j < e.pool.capacity,
        Live (cells e.pool.storage i) → Live (cells e.pool.storage j) →
        (cells e.pool.storage i).1.orderId = (cells e.pool.storage j).1.orderId → i = j := by
      intro i hi j hj hli hlj heq
      obtain ⟨s, hs⟩ := mem_slots_zero.mp ((hrec.1 i hi).mp hli)
      obtain ⟨s', hs'⟩ := mem_slots_zero.mp ((hrec.1 j hj).mp hlj)
      have hij := congrArg UInt32.toNat (hinv.refs (0, s) (0, s') _ _ hs hs' heq)
      rwa [toNat_ofNat_of_lt hpool.capacity hi, toNat_ofNat_of_lt hpool.capacity hj] at hij
    obtain ⟨d, hd⟩ := exists_recoverFromShared hd₀ hids
    exact ⟨d, hd, (hinv.sameBook_iff_recoverable (packs_of_recoverFromShared hd₀ hd)).mpr hrec⟩

end

/-- Two bids at one price, no removal: the slots are in serving order and the book comes back. -/
theorem recoverFromShared_restores_bids : ∃ e₀ e d₀ d,
    ofCapacity 4 none none none = some e₀ ∧
    (run exec e₀ [.add 0 1 .buy 100 5 1 .day, .add 0 2 .buy 100 7 2 .day]).map Prod.fst
      = some e ∧
    ofPool (.ofStorage e.pool.storage e.pool.capacity false) none none none = some d₀ ∧
    e.Recoverable ∧ d₀.recoverFromShared e.pool.capacity = some d ∧ SameBook 0 d e := by
  have hrun : ((ofCapacity 4 none none none).bind fun e₀ =>
      (run exec e₀ [.add 0 1 .buy 100 5 1 .day, .add 0 2 .buy 100 7 2 .day]).bind fun r =>
      (ofPool (.ofStorage r.1.pool.storage r.1.pool.capacity false) none none none).map
        fun _ => decide r.1.Recoverable) = some true := by
    decide +kernel
  simp only [Option.bind_eq_some_iff, Option.map_eq_some_iff, decide_eq_true_eq] at hrun
  obtain ⟨e₀, h₀, ⟨e, outs⟩, hrun, d₀, hd₀, hrec⟩ := hrun
  have t := trace_of_adds h₀ (by decide) (by decide) hrun
  obtain ⟨d, hd, hsame⟩ := (recoverFromShared_restores h₀ t hd₀).mpr hrec
  exact ⟨e₀, e, d₀, d, h₀, congrArg (Option.map Prod.fst) hrun, hd₀, hrec, hd, hsame⟩

/-- A bid is entered and cancelled. Its slot keeps the id and the status, so the recovered book
has the bid again. -/
theorem cancelled_order_comes_back : ∃ e₀ r d₀ d,
    ofCapacity 2 none none none = some e₀ ∧
    run exec e₀ [.add 0 1 .buy 100 5 1 .day, .cancel 0 1 1] = some r ∧
    ofPool (.ofStorage r.1.pool.storage r.1.pool.capacity false) none none none = some d₀ ∧
    d₀.recoverFromShared r.1.pool.capacity = some d ∧
    r.2 = [[.ok 1], [.cancelled 1]] ∧ r.1.levelView (0, .bid) 100 = none ∧
    (d.levelView (0, .bid) 100).map (fun v => v.orders.map OrderInfo.orderId) = some [1] := by
  have hrun : ((ofCapacity 2 none none none).bind fun e₀ =>
      (run exec e₀ [.add 0 1 .buy 100 5 1 .day, .cancel 0 1 1]).bind fun r =>
      (ofPool (.ofStorage r.1.pool.storage r.1.pool.capacity false) none none none).bind fun d₀ =>
      (d₀.recoverFromShared r.1.pool.capacity).map fun d =>
        (r.2, r.1.levelView (0, .bid) 100,
          (d.levelView (0, .bid) 100).map fun v => v.orders.map OrderInfo.orderId))
      = some ([[.ok 1], [.cancelled 1]], none, some [1]) := by
    decide +kernel
  simp only [Option.bind_eq_some_iff, Option.map_eq_some_iff, Prod.mk.injEq] at hrun
  obtain ⟨e₀, h₀, r, hr, d₀, hd₀, d, hd, hout, hbefore, v, hview, hids⟩ := hrun
  exact ⟨e₀, r, d₀, d, h₀, hr, hd₀, hd, hout, hbefore, by rw [hview, ← hids]; rfl⟩

/-! ### Two recoveries -/

/-- A second recovery. If the ids of the live slots of an array are distinct, recovery comes
back; and recovery by another new engine over the array the first one left comes back with the
same book exactly if the live slots were an initial segment of the array. -/
theorem recoverFromShared_twice {storage : UInt32 → Order} {c : Nat}
    {metrics : Option IOCounters} {wal : Option WalWriter} {tradePool : Option TradePool}
    {d₀ : MatchingEngine}
    (h₀ : ofPool (.ofStorage storage c false) metrics wal tradePool = some d₀)
    (hids : ∀ i < c, ∀ j < c, Live (cells storage i) → Live (cells storage j) →
      (cells storage i).1.orderId = (cells storage j).1.orderId → i = j) :
    ∃ d d₁, d₀.recoverFromShared c = some d ∧
      ofPool (.ofStorage d.pool.storage c false) metrics wal tradePool = some d₁ ∧
      ((∃ d', d₁.recoverFromShared c = some d' ∧ SameBook 0 d' d) ↔
        ∀ j < c, Live (cells storage j) → ∀ i < j, Live (cells storage i)) := by
  obtain ⟨d, hd⟩ := exists_recoverFromShared h₀ hids
  have hp := packs_of_recoverFromShared h₀ hd
  obtain ⟨d₁, h₁⟩ : ∃ d₁,
      ofPool (.ofStorage d.pool.storage c false) metrics wal tradePool = some d₁ := by
    simp only [ofPool, Option.bind_eq_bind, Option.bind_eq_some_iff] at h₀ ⊢
    obtain ⟨index, hindex, -⟩ := h₀
    exact ⟨_, index, hindex, rfl⟩
  refine ⟨d, d₁, hd, h₁, ?_⟩
  -- The second scan reads the packed array.
  have hkept : kept Live (cells d.pool.storage) c = kept Live (packed Live (cells storage) c) c :=
    kept_congr Live hp.cells
  rw [← kept_packed_eq_iff]
  constructor
  · rintro ⟨d', hd', hsame⟩
    have hp' := packs_of_recoverFromShared h₁ hd'
    rw [sameBook_iff hp'.booksRep hp.booksRep] at hsame
    rw [kept_packed, List.append_right_eq_self]
    -- A live slot behind the packed part would be in its level once more.
    rw [List.eq_nil_iff_forall_not_mem]
    intro x hx
    have hlive : Live x := by simpa using (List.mem_filter.mp hx).2
    have hlevel := hsame x.1.side.bookSide x.1.price
    rw [hp'.orders, hp.orders, hkept, kept_packed, List.filter_append, List.map_append,
      List.append_right_eq_self, List.map_eq_nil_iff] at hlevel
    refine List.not_mem_nil (hlevel ▸ List.mem_filter.mpr ⟨hx, ?_⟩)
    simp
  · intro hsame
    have hids' : ∀ i < c, ∀ j < c, Live (cells d.pool.storage i) →
        Live (cells d.pool.storage j) →
        (cells d.pool.storage i).1.orderId = (cells d.pool.storage j).1.orderId → i = j := by
      -- Nothing moved, so the ids are those of the first array.
      have hself := packed_eq_self Live ((kept_packed_eq_iff Live (cells storage) c).mp hsame)
      intro i hi j hj
      rw [hp.cells i hi, hp.cells j hj, hself]
      exact hids i hi j hj
    obtain ⟨d', hd'⟩ := exists_recoverFromShared h₁ hids'
    have hp' := packs_of_recoverFromShared h₁ hd'
    refine ⟨d', hd', (sameBook_iff hp'.booksRep hp.booksRep).mpr fun s price => ?_⟩
    rw [hp'.orders, hp.orders, hkept, hsame]

/-- A resting bid, as a slot holds it. -/
def sampleBid : Order where
  userId := 1
  orderId := 1
  side := .buy
  price := 100
  originalQty := 5
  remainingQty := 5

/-- Two bids of one price, between them an order whose side byte is 7, and behind them a cancelled
order. -/
def liveFront (i : UInt32) : Order :=
  if i = 0 then sampleBid
  else if i = 1 then { sampleBid with orderId := 2, side := byte7, price := 101 }
  else if i = 2 then { sampleBid with orderId := 3, remainingQty := 2, status := .partiallyFilled }
  else if i = 3 then { sampleBid with orderId := 4, status := .cancelled }
  else {}

/-- The live slots come first, so both recoveries give the same book. The order with the byte 7
stands among the asks. -/
theorem recoverFromShared_twice_front : ∃ d₀ d d₁ d',
    ofPool (.ofStorage liveFront 6 false) none none none = some d₀ ∧
    d₀.recoverFromShared 6 = some d ∧
    ofPool (.ofStorage d.pool.storage 6 false) none none none = some d₁ ∧
    d₁.recoverFromShared 6 = some d' ∧ SameBook 0 d' d ∧
    (d.levelView (0, .bid) 100).map (fun v => v.orders.map OrderInfo.orderId) = some [1, 3] ∧
    (d.levelView (0, .ask) 101).map (fun v => v.orders.map OrderInfo.orderId) = some [2] := by
  have hrun : ((ofPool (.ofStorage liveFront 6 false) none none none).bind fun d₀ =>
      (d₀.recoverFromShared 6).map fun d =>
        ((d.levelView (0, .bid) 100).map fun v => v.orders.map OrderInfo.orderId,
          (d.levelView (0, .ask) 101).map fun v => v.orders.map OrderInfo.orderId))
      = some (some [1, 3], some [2]) := by
    decide +kernel
  obtain ⟨d₀, h₀, hrun⟩ := Option.bind_eq_some_iff.mp hrun
  obtain ⟨d, hd, hviews⟩ := Option.map_eq_some_iff.mp hrun
  obtain ⟨hbids, hasks⟩ := Prod.mk.inj hviews
  obtain ⟨d₂, d₁, hd₂, h₁, hiff⟩ := recoverFromShared_twice h₀ (by decide +kernel)
  obtain rfl : d = d₂ := Option.some.inj (hd.symm.trans hd₂)
  obtain ⟨d', hd', hsame⟩ := hiff.mpr (by decide +kernel)
  exact ⟨d₀, d, d₁, d', h₀, hd, h₁, hd', hsame, hbids, hasks⟩

/-- One bid in slot 1 of two. The first recovery writes it to slot 0 and leaves slot 1 as it was,
so the second recovery finds it twice. -/
theorem recovered_order_doubles : ∃ d₀ d d₁ d',
    ofPool (.ofStorage (fun i => if i = 1 then sampleBid else {}) 2 false) none none none
      = some d₀ ∧
    d₀.recoverFromShared 2 = some d ∧
    ofPool (.ofStorage d.pool.storage 2 false) none none none = some d₁ ∧
    d₁.recoverFromShared 2 = some d' ∧
    (d.levelView (0, .bid) 100).map (fun v => v.orders.map OrderInfo.orderId) = some [1] ∧
    (d'.levelView (0, .bid) 100).map (fun v => v.orders.map OrderInfo.orderId)
      = some [1, 1] := by
  have hrun : ((ofPool (.ofStorage (fun i => if i = 1 then sampleBid else {}) 2 false) none none
        none).bind fun d₀ =>
      (d₀.recoverFromShared 2).bind fun d =>
      (ofPool (.ofStorage d.pool.storage 2 false) none none none).bind fun d₁ =>
      (d₁.recoverFromShared 2).map fun d' =>
        ((d.levelView (0, .bid) 100).map fun v => v.orders.map OrderInfo.orderId,
          (d'.levelView (0, .bid) 100).map fun v => v.orders.map OrderInfo.orderId))
      = some (some [1], some [1, 1]) := by
    decide +kernel
  simp only [Option.bind_eq_some_iff, Option.map_eq_some_iff, Prod.mk.injEq] at hrun
  obtain ⟨d₀, h₀, d, hd, d₁, h₁, d', hd', ⟨v, hv, hids⟩, v', hv', hids'⟩ := hrun
  exact ⟨d₀, d, d₁, d', h₀, hd, h₁, hd', by rw [hv, ← hids]; rfl, by rw [hv', ← hids']; rfl⟩

end MatchingEngine

end NebulaX
