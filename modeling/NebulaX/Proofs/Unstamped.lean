import NebulaX.Engine.Recovery
import NebulaX.Proofs.View

/-!
# `NebulaX.Proofs.Unstamped`: sequence numbers decide nothing

An order carries the number it was given, and nothing in the engine reads it. `unstamped`
forgets the numbers of a pool and of what is built on it, and every operation of the books
commutes with it. So two engines that differ in the numbers only (`Twin`) stay that way
under equal operations: the same slots are taken and freed, the same levels change, and the
index is the same, down to its nodes.
-/

set_option autoImplicit false

namespace NebulaX

open NebulaX.Lib

/-- The order without its number. -/
def Order.unstamped (o : Order) : Order := { o with sequence := 0 }

/-! ### The pool -/

namespace OrderPool

/-- The pool without the numbers of its orders. -/
def unstamped (p : OrderPool) : OrderPool :=
  { p with storage := fun i => (p.storage i).unstamped }

/-- A write that treats numbers alike. -/
theorem unstamped_modify (p : OrderPool) (idx : UInt32) {f g : Order → Order}
    (h : ∀ o, (f o).unstamped = g o.unstamped) :
    (p.modify idx f).unstamped = p.unstamped.modify idx g := by
  simp only [modify, unstamped, OrderPool.mk.injEq, and_true]
  rw [← h]
  exact Function.comp_update Order.unstamped p.storage idx (f (p.storage idx))

theorem allocate_unstamped (p : OrderPool) :
    p.unstamped.allocate = (p.allocate.1, p.allocate.2.unstamped) := by
  unfold allocate
  by_cases hnil : p.freeHead.idx = uint32Max
  · simp [unstamped, hnil]
  · simp [unstamped, hnil, Order.unstamped]

theorem unstamped_deallocate (p : OrderPool) (idx : UInt32) :
    (p.deallocate idx).unstamped = p.unstamped.deallocate idx := by
  have hw : (p.modify idx fun o => { o with poolNextFree := p.freeHead.idx }).unstamped
      = p.unstamped.modify idx fun o => { o with poolNextFree := p.freeHead.idx } :=
    unstamped_modify p idx fun _ => rfl
  show { (p.modify idx fun o => { o with poolNextFree := p.freeHead.idx }).unstamped with
    freeHead := p.freeHead.swing idx, size := p.size - 1 } = _
  rw [hw]
  rfl

end OrderPool

/-! ### The book -/

namespace OrderBook

/-- The book without the numbers of its orders. -/
def unstamped (b : OrderBook) : OrderBook := { b with pool := b.pool.unstamped }

variable (b : OrderBook)

theorem unstamped_modifyOrder (idx : UInt32) (f : Order → Order) {g : Order → Order}
    (h : ∀ o, (f o).unstamped = g o.unstamped) :
    (b.modifyOrder idx f).unstamped = b.unstamped.modifyOrder idx g := by
  simp only [modifyOrder, unstamped]
  rw [b.pool.unstamped_modify idx h]

/-- A write of a field that is not the number. -/
theorem unstamped_write (idx : UInt32) (f : Order → Order)
    (h : ∀ o, (f o).unstamped = f o.unstamped) :
    (b.modifyOrder idx f).unstamped = b.unstamped.modifyOrder idx f :=
  b.unstamped_modifyOrder idx f h

theorem unstamped_setLevels (d : BookSide) (m : LevelMap d) :
    (b.setLevels d m).unstamped = b.unstamped.setLevels d m := by
  cases d <;> rfl

theorem unstamped_putLevel (d : BookSide) (price : UInt32) (level : PriceLevel) :
    (b.putLevel d price level).unstamped = b.unstamped.putLevel d price level :=
  b.unstamped_setLevels d _

theorem unstamped_linkTail (d : BookSide) (price idx remaining : UInt32) :
    (b.linkTail d price idx remaining).unstamped
      = b.unstamped.linkTail d price idx remaining := by
  unfold linkTail
  simp only [show b.unstamped.levelAt d price = b.levelAt d price from rfl]
  split
  · rw [unstamped_putLevel, unstamped_write]
    exact fun _ => rfl
  · rw [unstamped_putLevel, unstamped_write, unstamped_write]
    · exact fun _ => rfl
    · exact fun _ => rfl

theorem addOrder_unstamped (order : Order) :
    b.unstamped.addOrder order.unstamped
      = (b.addOrder order).map fun r => (r.1, r.2.unstamped) := by
  have halloc := b.pool.allocate_unstamped
  unfold addOrder
  simp only [show b.unstamped.pool = b.pool.unstamped from rfl, halloc,
    show order.unstamped.toOrderInfo = order.toOrderInfo from rfl]
  split
  · rfl
  · cases hidx : b.pool.allocate with
    | mk slot pool =>
        cases slot with
        | none => rfl
        | some idx =>
            have hw : ({ b.unstamped with pool := pool.unstamped }.modifyOrder idx fun _ =>
                order.unstamped) = ({ b with pool := pool }.modifyOrder idx fun _ =>
                  order).unstamped := by
              rw [unstamped_modifyOrder]
              · rfl
              · exact fun _ => rfl
            simp only [hw, ← unstamped_linkTail]
            generalize OrderBook.linkTail _ _ _ _ _ = b₁
            show (do let r ← b₁.index.insert order.orderId idx
                     return (true, { b₁.unstamped with index := r.2 })) = _
            cases b₁.index.insert order.orderId idx <;> rfl

/-- Taking an amount off an order and its level. -/
theorem unstamped_reduceLevel (d : BookSide) (price amount : UInt32) :
    (b.reduceLevel d price amount).unstamped = b.unstamped.reduceLevel d price amount :=
  b.unstamped_putLevel d price _

theorem unstamped_reduceOrderQty (idx amount : UInt32) :
    (b.reduceOrderQty idx amount).unstamped = b.unstamped.reduceOrderQty idx amount := by
  have hw : (b.modifyOrder idx fun o => { o with
      remainingQty := o.remainingQty - amount, filledQty := o.filledQty + amount }).unstamped
      = b.unstamped.modifyOrder idx fun o => { o with
        remainingQty := o.remainingQty - amount, filledQty := o.filledQty + amount } :=
    b.unstamped_modifyOrder idx _ fun _ => rfl
  unfold reduceOrderQty
  rw [unstamped_reduceLevel, ← hw]
  rfl

theorem unstamped_reduceQtyCancel (idx amount : UInt32) :
    (b.reduceQtyCancel idx amount).unstamped = b.unstamped.reduceQtyCancel idx amount := by
  have hw : (b.modifyOrder idx fun o => { o with
      remainingQty := o.remainingQty - amount }).unstamped
      = b.unstamped.modifyOrder idx fun o => { o with remainingQty := o.remainingQty - amount } :=
    b.unstamped_modifyOrder idx _ fun _ => rfl
  unfold reduceQtyCancel
  rw [unstamped_reduceLevel, ← hw]
  rfl

/-- Joining the neighbours of a slot: the two writes one after the other. -/
theorem unstamped_unlink (idx : UInt32) :
    (b.unlink idx).unstamped = b.unstamped.unlink idx := by
  have hfst : ∀ b : OrderBook, OrderBook.unstamped (
      if (b.pool.storage idx).prevIdx ≠ uint32Max then
        b.modifyOrder (b.pool.storage idx).prevIdx fun p =>
          { p with nextIdx := (b.pool.storage idx).nextIdx }
      else b) = if (b.pool.storage idx).prevIdx ≠ uint32Max then
        b.unstamped.modifyOrder (b.pool.storage idx).prevIdx fun p =>
          { p with nextIdx := (b.pool.storage idx).nextIdx }
      else b.unstamped := by
    intro b
    split
    · exact b.unstamped_write _ _ fun _ => rfl
    · rfl
  have hsnd : ∀ b : OrderBook, OrderBook.unstamped (
      if (b.pool.storage idx).nextIdx ≠ uint32Max then
        b.modifyOrder (b.pool.storage idx).nextIdx fun n =>
          { n with prevIdx := (b.pool.storage idx).prevIdx }
      else b) = if (b.unstamped.pool.storage idx).nextIdx ≠ uint32Max then
        b.unstamped.modifyOrder (b.unstamped.pool.storage idx).nextIdx fun n =>
          { n with prevIdx := (b.unstamped.pool.storage idx).prevIdx }
      else b.unstamped := by
    intro b
    split
    · rename_i hnil
      rw [if_pos (show (b.unstamped.pool.storage idx).nextIdx ≠ uint32Max from hnil)]
      exact b.unstamped_write _ _ fun _ => rfl
    · rename_i hnil
      rw [if_neg (show ¬ (b.unstamped.pool.storage idx).nextIdx ≠ uint32Max from hnil)]
  unfold unlink
  refine (hsnd _).trans ?_
  rw [hfst]
  rfl

theorem removeFrom_unstamped (d : BookSide) (idx : UInt32) :
    b.unstamped.removeFrom d idx = (b.removeFrom d idx).map unstamped := by
  unfold removeFrom
  simp only [show b.unstamped.levels d = b.levels d from rfl,
    show (b.unstamped.pool.storage idx).price = (b.pool.storage idx).price from rfl,
    ← unstamped_unlink]
  cases (b.levels d).find? (b.pool.storage idx).price with
  | none => rfl
  | some level =>
      simp only
      generalize b.unlink idx = b₁
      have hlevel : levelWithout level idx (b₁.unstamped.pool.storage idx)
          = levelWithout level idx (b₁.pool.storage idx) := rfl
      rw [hlevel]
      generalize levelWithout level idx (b₁.pool.storage idx) = lvl
      -- The levels are stored, then the index forgets the reference and the slot is freed.
      have hstore : ∀ c : Prop, [Decidable c] → (if c then
          b₁.unstamped.setLevels d
            ((b₁.unstamped.levels d).erase (b₁.unstamped.pool.storage idx).price)
          else b₁.unstamped.putLevel d (b₁.unstamped.pool.storage idx).price lvl)
          = OrderBook.unstamped (if c then
            b₁.setLevels d ((b₁.levels d).erase (b₁.pool.storage idx).price)
            else b₁.putLevel d (b₁.pool.storage idx).price lvl) := by
        intro c _
        split
        · exact (b₁.unstamped_setLevels d _).symm
        · exact (b₁.unstamped_putLevel d _ lvl).symm
      rw [hstore]
      generalize (if lvl.count = 0 then _ else _ : OrderBook) = b₂
      show (do let index ← b₂.index.erase (b₁.pool.storage idx).orderId
               return { b₂.unstamped with
                 index := index, pool := b₂.pool.unstamped.deallocate idx }) = _
      rw [← OrderPool.unstamped_deallocate]
      cases b₂.index.erase (b₁.pool.storage idx).orderId <;> rfl

theorem removeOrder_unstamped (idx : UInt32) :
    b.unstamped.removeOrder idx = (b.removeOrder idx).map unstamped :=
  b.removeFrom_unstamped _ idx

theorem scanLevel_unstamped (storage : UInt32 → Order) (userId : UInt64) (fuel : Nat)
    (idx : UInt32) :
    scanLevel (fun i => (storage i).unstamped) userId fuel idx
      = scanLevel storage userId fuel idx := by
  induction fuel generalizing idx with
  | zero => rfl
  | succ fuel ih =>
      simp only [scanLevel, show (storage idx).unstamped.userId = (storage idx).userId from rfl,
        show (storage idx).unstamped.nextIdx = (storage idx).nextIdx from rfl, ih]

theorem scanLevels_unstamped (pool : OrderPool) (userId : UInt64)
    (entries : List (UInt32 × PriceLevel)) :
    scanLevels pool.unstamped userId entries = scanLevels pool userId entries := by
  induction entries with
  | nil => rfl
  | cons entry entries ih =>
      have hlevel := scanLevel_unstamped pool.storage userId (pool.capacity + 1) entry.2.headIdx
      simp only [scanLevels, ih]
      rw [← hlevel]
      rfl

theorem getBest_unstamped (d : BookSide) (userId : UInt64) :
    b.unstamped.getBest d userId = b.getBest d userId := by
  unfold getBest
  simp only [show b.unstamped.levels d = b.levels d from rfl,
    show b.unstamped.pool = b.pool.unstamped from rfl, scanLevels_unstamped]

end OrderBook

/-! ### The matching loop -/

namespace MatchingEngine

/-- The state of the loop without numbers, counters and trade records. -/
def MatchState.unstamped (st : MatchState) : MatchState where
  book := st.book.unstamped
  order := st.order.unstamped
  out := st.out
  metrics := none
  tradePool := none
  tradeId := 0

theorem settle_unstamped (b : OrderBook) (best : UInt32) :
    settle b.unstamped best = (settle b best).map OrderBook.unstamped := by
  unfold settle
  split
  · rename_i hz
    rw [if_pos (show (b.pool.storage best).remainingQty = 0 from hz),
      ← OrderBook.removeOrder_unstamped, OrderBook.unstamped_write]
    exact fun _ => rfl
  · rename_i hz
    rw [if_neg (show ¬ (b.pool.storage best).remainingQty = 0 from hz), Option.map_some,
      OrderBook.unstamped_write]
    exact fun _ => rfl

theorem fill_unstamped (d : BookSide) (locate seq seq' : UInt64) (best : UInt32)
    (st : MatchState) :
    fill d locate seq' best st.unstamped
      = (fill d locate seq best st).map MatchState.unstamped := by
  have hbook : ∀ amount, (st.unstamped.book.reduceOrderQty best amount)
      = (st.book.reduceOrderQty best amount).unstamped :=
    fun amount => (st.book.unstamped_reduceOrderQty best amount).symm
  unfold fill
  simp only [hbook, settle_unstamped]
  show (do
    let book ← (settle (st.book.reduceOrderQty best (min st.order.remainingQty
      (st.book.pool.storage best).remainingQty)) best).map OrderBook.unstamped
    _) = _
  generalize settle _ best = r
  cases r <;> rfl

theorem matchLoop_unstamped (d : BookSide) (locate seq seq' : UInt64) (fuel : Nat)
    (st : MatchState) :
    matchLoop d locate seq' fuel st.unstamped
      = (matchLoop d locate seq fuel st).map MatchState.unstamped := by
  induction fuel generalizing st with
  | zero => rfl
  | succ fuel ih =>
      have hbest : st.unstamped.book.getBest d st.unstamped.order.userId
          = st.book.getBest d st.order.userId := st.book.getBest_unstamped d _
      unfold matchLoop
      rw [hbest]
      split
      · rename_i hz
        rw [if_pos (show st.order.remainingQty = 0 from hz)]
        rfl
      · rename_i hz
        rw [if_neg (show ¬ st.order.remainingQty = 0 from hz)]
        cases st.book.getBest d st.order.userId with
        | none => rfl
        | some best =>
            cases best with
            | none => rfl
            | some best =>
                simp only [Option.bind_eq_bind, Option.bind_some]
                split
                · rename_i hb
                  rw [if_pos (show Beyond d st.order.price (st.book.pool.storage best).price
                    from hb)]
                  rfl
                · rename_i hb
                  rw [if_neg (show ¬ Beyond d st.order.price (st.book.pool.storage best).price
                    from hb), fill_unstamped d locate seq seq' best st, Option.bind_map,
                    Option.map_bind]
                  exact congrArg _ (funext fun st' => ih st')

/-! ### Twin engines -/

/-- What is equal under a map comes back together. -/
theorem exists_of_map_eq {α β : Type} {g : α → β} {x y : Option α} (h : y.map g = x.map g)
    {a : α} (ha : x = some a) : ∃ b, y = some b ∧ g b = g a := by
  rw [ha, Option.map_some, Option.map_eq_some_iff] at h
  exact h

/-- The engines hold the same books in the same slots, and the same index. They differ in
the numbers of their orders, in counters and in logs. -/
structure Twin (e d : MatchingEngine) : Prop where
  levelsOf : d.levelsOf = e.levelsOf
  pool : d.pool.unstamped = e.pool.unstamped
  index : d.index = e.index

namespace Twin

variable {e d : MatchingEngine}

theorem refl (e : MatchingEngine) : Twin e e := ⟨rfl, rfl, rfl⟩

/-- Counters and logs do not matter. -/
theorem trans_same {e' d' : MatchingEngine} (h : Twin e d) (he : Same e e') (hd : Same d d') :
    Twin e' d' :=
  ⟨by rw [hd.levelsOf, he.levelsOf, h.levelsOf], by rw [hd.pool, he.pool, h.pool],
    by rw [hd.index, he.index, h.index]⟩

theorem book (h : Twin e d) (locate : UInt64) :
    (d.book locate).unstamped = (e.book locate).unstamped := by
  simp only [OrderBook.unstamped, MatchingEngine.book, h.levelsOf, h.pool, h.index]

theorem info (h : Twin e d) (i : UInt32) : d.pool.info i = e.pool.info i := by
  show d.pool.unstamped.info i = e.pool.unstamped.info i
  rw [h.pool]

/-- Storing books that differ in numbers only. -/
theorem putBook (h : Twin e d) (locate : UInt64) {b c : OrderBook}
    (hb : c.unstamped = b.unstamped) : Twin (e.putBook locate b) (d.putBook locate c) := by
  simp only [OrderBook.unstamped, OrderBook.mk.injEq] at hb
  obtain ⟨hlevels, hpool, hindex⟩ := hb
  refine ⟨?_, hpool, hindex⟩
  rw [levelsOf_putBook, levelsOf_putBook, h.levelsOf, hlevels]

/-- A twin shows the same books. -/
theorem sameBook (h : Twin e d) (locate : UInt64) : SameBook locate d e := by
  intro s price
  show bookView (d.levelsOf locate) d.pool.unstamped.storage d.pool.unstamped.info s price
    = bookView (e.levelsOf locate) e.pool.unstamped.storage e.pool.unstamped.info s price
  rw [h.levelsOf, h.pool]

/-- Twins remove the same order. -/
theorem removeOrder (h : Twin e d) {locate : UInt64} {idx : UInt32} {b : OrderBook}
    (hb : (e.book locate).removeOrder idx = some b) :
    ∃ c, (d.book locate).removeOrder idx = some c ∧
      Twin (e.putBook locate b) (d.putBook locate c) := by
  have hmap : ((d.book locate).removeOrder idx).map OrderBook.unstamped
      = ((e.book locate).removeOrder idx).map OrderBook.unstamped := by
    rw [← OrderBook.removeOrder_unstamped, ← OrderBook.removeOrder_unstamped, h.book]
  obtain ⟨c, hc, hcb⟩ := exists_of_map_eq hmap hb
  exact ⟨c, hc, h.putBook locate hcb⟩

/-- Twins reduce the same order. -/
theorem reduceQtyCancel (h : Twin e d) (locate : UInt64) (idx shares : UInt32) :
    Twin (e.putBook locate ((e.book locate).reduceQtyCancel idx shares))
      (d.putBook locate ((d.book locate).reduceQtyCancel idx shares)) := by
  refine h.putBook locate ?_
  rw [OrderBook.unstamped_reduceQtyCancel, OrderBook.unstamped_reduceQtyCancel, h.book]

/-- Twins rest the same order. -/
theorem addOrder (h : Twin e d) {locate : UInt64} {order order' : Order}
    (ho : order'.unstamped = order.unstamped) {added : Bool} {b : OrderBook}
    (hb : (e.book locate).addOrder order = some (added, b)) :
    ∃ c, (d.book locate).addOrder order' = some (added, c) ∧
      Twin (e.putBook locate b) (d.putBook locate c) := by
  have hmap : ((d.book locate).addOrder order').map (fun r => (r.1, r.2.unstamped))
      = ((e.book locate).addOrder order).map fun r => (r.1, r.2.unstamped) := by
    rw [← OrderBook.addOrder_unstamped, ← OrderBook.addOrder_unstamped, h.book, ho]
  obtain ⟨⟨added', c⟩, hc, hcb⟩ := exists_of_map_eq hmap hb
  rw [Prod.mk.injEq] at hcb
  obtain ⟨rfl, hcb⟩ := hcb
  exact ⟨c, hc, h.putBook locate hcb⟩

/-- Twins match the same order alike. -/
theorem matchSide (h : Twin e d) {locate : UInt64} {order order' : Order}
    (ho : order'.unstamped = order.unstamped) {e₁ : MatchingEngine} {left : Order}
    {out : List BinaryResponse} (hm : e.matchSide locate order = some (e₁, left, out)) :
    ∃ d₁ left', d.matchSide locate order' = some (d₁, left', out) ∧ Twin e₁ d₁ ∧
      left'.unstamped = left.unstamped := by
  have hside : order'.side = order.side := by
    show order'.unstamped.side = order.unstamped.side
    rw [ho]
  obtain ⟨s, st, hs, hloop, heq⟩ := matchSide_inv hm
  cases heq
  have hcap : d.pool.capacity = e.pool.capacity := by
    show d.pool.unstamped.capacity = e.pool.unstamped.capacity
    rw [h.pool]
  -- The loops start from states that differ in numbers, counters and records.
  obtain ⟨st', hst'⟩ : ∃ st' : MatchState, st' = {
    book := d.book locate, order := order', out := [], metrics := d.metrics,
    tradePool := d.tradePool, tradeId := d.tradeId s } := ⟨_, rfl⟩
  have hstart : st'.unstamped = MatchState.unstamped {
      book := e.book locate, order := order, out := [], metrics := e.metrics,
      tradePool := e.tradePool, tradeId := e.tradeId s } := by
    rw [hst']
    simp only [MatchState.unstamped, h.book, ho]
  have hmap : (matchLoop s locate d.nextSequence (d.pool.capacity + 1) st').map
      MatchState.unstamped = (matchLoop s locate e.nextSequence (e.pool.capacity + 1)
        { book := e.book locate, order := order, out := [], metrics := e.metrics
          tradePool := e.tradePool, tradeId := e.tradeId s }).map MatchState.unstamped := by
    rw [← matchLoop_unstamped s locate d.nextSequence 0,
      ← matchLoop_unstamped s locate e.nextSequence 0, hstart, hcap]
  obtain ⟨st₁, hst₁, heq⟩ := exists_of_map_eq hmap hloop
  simp only [MatchState.unstamped, MatchState.mk.injEq, and_true] at heq
  obtain ⟨hbook, horder, hout⟩ := heq
  refine ⟨d.afterMatch s locate st₁, st₁.order, ?_, ?_, horder⟩
  · rw [matchSide_eq, hside, ← hs, matchOrder, ← hst', hst₁, ← hout]
    rfl
  · exact (h.putBook locate hbook).trans_same ⟨rfl, rfl, rfl, rfl⟩ ⟨rfl, rfl, rfl, rfl⟩

end Twin

end MatchingEngine

end NebulaX
