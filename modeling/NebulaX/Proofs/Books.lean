import NebulaX.Proofs.Pool
import NebulaX.Proofs.Side
import NebulaX.Spec.Exchange

/-!
# `NebulaX.Proofs.Books`: all books over one pool

`BooksRep B pool` is the representation invariant of the books `B` over the shared pool:
every level of every book is well formed, and the slots of the pool are split between the
free list and the sides of the books. `placeSlots` are the slots of a side in serving
order; it is the `used` of `PoolRep`.

The operations of `OrderBook` act on one side of one book. Each has a lemma that says what
they make of all the books:

* `BooksRep.addOrder`: `Entry`, a free slot enters the queue of a side;
* `BooksRep.removeOrder`: `Removal`, a slot leaves the queue of its side;
* `BooksRep.reduceLevel`: a slot gets a smaller quantity, nothing moves.

The index is not looked at here: `addOrder` and `removeOrder` hand it the order's id and
return what it returns.
-/

set_option autoImplicit false

namespace NebulaX

open NebulaX.Lib

/-- The part of a slot the lists do not own: the order and its arrival number. -/
def Order.data (o : Order) : OrderInfo × UInt64 := (o.toOrderInfo, o.sequence)

@[simp] theorem BookSide.bookSide_side (d : BookSide) : d.side.bookSide = d := by
  cases d <;> rfl

namespace BookLevels

@[simp] theorem levels_setLevels_self (b : BookLevels) (d : BookSide) (m : LevelMap d) :
    (b.setLevels d m).levels d = m := by
  cases d <;> rfl

theorem levels_setLevels_of_ne {d d' : BookSide} (h : d' ≠ d) (b : BookLevels)
    (m : LevelMap d) : (b.setLevels d m).levels d' = b.levels d' := by
  cases d <;> cases d' <;> first | rfl | exact absurd rfl h

end BookLevels

/-- The slots of a side of a book, in serving order. -/
def placeSlots (B : UInt64 → BookLevels) (st : UInt32 → Order) (π : Place) : List UInt32 :=
  entrySlots st ((B π.1).levels π.2).entries

/-- The books and the pool are in step. -/
structure BooksRep (B : UInt64 → BookLevels) (pool : OrderPool) : Prop where
  levels : ∀ π : Place, EntriesRep pool.storage π.2 ((B π.1).levels π.2).entries
  slots : ∃ free, PoolRep pool (placeSlots B pool.storage) free

section
variable {B : UInt64 → BookLevels} {st st' : UInt32 → Order}

/-- One side of one book is replaced; the writes to the pool do not touch what the other
sides read. -/
theorem levels_frame (h : ∀ π : Place, EntriesRep st π.2 ((B π.1).levels π.2).entries)
    (locate : UInt64) (d : BookSide) (m : LevelMap d) (hm : EntriesRep st' d m.entries)
    (hframe : ∀ π : Place, π ≠ (locate, d) → ∀ i ∈ placeSlots B st π,
      (st' i).bookPart = (st i).bookPart) :
    (∀ π : Place, EntriesRep st' π.2
        ((Function.update B locate ((B locate).setLevels d m) π.1).levels π.2).entries) ∧
      placeSlots (Function.update B locate ((B locate).setLevels d m)) st'
        = Function.update (placeSlots B st) (locate, d) (entrySlots st' m.entries) := by
  -- The levels of a place after the replacement.
  have hself : ((Function.update B locate ((B locate).setLevels d m) locate).levels d) = m := by
    rw [Function.update_self, BookLevels.levels_setLevels_self]
  have hother : ∀ π : Place, π ≠ (locate, d) →
      (Function.update B locate ((B locate).setLevels d m) π.1).levels π.2
        = (B π.1).levels π.2 := by
    rintro ⟨l', d'⟩ hne
    by_cases hl : l' = locate
    · subst hl
      have hd : d' ≠ d := fun e => hne (by rw [e])
      simp only [Function.update_self]
      exact BookLevels.levels_setLevels_of_ne hd _ _
    · simp only [Function.update_of_ne hl]
  constructor
  · intro π
    by_cases hπ : π = (locate, d)
    · subst hπ
      rw [hself]
      exact hm
    · rw [hother π hπ]
      exact ((h π).congr (hframe π hπ)).1
  · funext π
    by_cases hπ : π = (locate, d)
    · subst hπ
      rw [Function.update_self, placeSlots, hself]
    · rw [Function.update_of_ne hπ, placeSlots, hother π hπ]
      exact ((h π).congr (hframe π hπ)).2

end

namespace BooksRep

variable {B : UInt64 → BookLevels} {pool : OrderPool}

/-- The slots of a side are distinct. -/
theorem nodup (h : BooksRep B pool) (π : Place) : (placeSlots B pool.storage π).Nodup := by
  obtain ⟨free, hfree⟩ := h.slots
  exact hfree.nodup π

/-- A slot is in one place. -/
theorem place_unique (h : BooksRep B pool) {π π' : Place} {i : UInt32}
    (hi : i ∈ placeSlots B pool.storage π) (hi' : i ∈ placeSlots B pool.storage π') :
    π = π' := by
  obtain ⟨free, hfree⟩ := h.slots
  exact hfree.disjoint π π' i hi hi'

/-- Fewer slots than the pool has are on any side. -/
theorem length_le (h : BooksRep B pool) (π : Place) :
    (placeSlots B pool.storage π).length ≤ pool.capacity := by
  obtain ⟨free, hfree⟩ := h.slots
  exact length_le_of_nodup (hfree.nodup π) (hfree.lt π)

/-- The order in a slot of a side may rest there. -/
theorem restsOn (h : BooksRep B pool) {π : Place} {i : UInt32}
    (hi : i ∈ placeSlots B pool.storage π) : (pool.storage i).side.RestsOn π.2 :=
  ((h.levels π).order_of_mem hi).1

/-- The book side of an order in a slot of a side. -/
theorem bookSide_eq (h : BooksRep B pool) {π : Place} {i : UInt32}
    (hi : i ∈ placeSlots B pool.storage π) : (pool.storage i).side.bookSide = π.2 :=
  (h.restsOn hi).2

end BooksRep

/-! ### `removeOrder` -/

/-- The books before and after slot `idx` left place `π` and went to the free list. -/
structure Removal (B B' : UInt64 → BookLevels) (pool pool' : OrderPool) (π : Place)
    (idx : UInt32) (l r : List UInt32) : Prop where
  rep : BooksRep B' pool'
  before : placeSlots B pool.storage π = l ++ idx :: r
  after : placeSlots B' pool'.storage = Function.update (placeSlots B pool.storage) π (l ++ r)
  data : ∀ i, (pool'.storage i).data = (pool.storage i).data
  capacity : pool'.capacity = pool.capacity
  free : pool'.freeCount = pool.freeCount + 1

/-- `unlink` writes the pool only. -/
theorem OrderBook.unlink_eq (b : OrderBook) (idx : UInt32) :
    b.unlink idx = { b with
      pool := { b.pool with storage := LevelRep.unlinkedFrom b.pool.storage idx } } := by
  unfold OrderBook.unlink LevelRep.unlinkedFrom
  by_cases hp : (b.pool.storage idx).prevIdx = uint32Max
  · simp only [hp, ne_eq, not_true_eq_false, if_false]
    split <;> rfl
  · simp only [ne_eq, hp, not_false_eq_true, if_true]
    split <;> simp_all [OrderBook.modifyOrder, OrderPool.modify]

namespace BooksRep

variable {B : UInt64 → BookLevels} {pool : OrderPool}

/-- `removeOrder` of a slot of the book. -/
theorem removeOrder (h : BooksRep B pool) {locate : UInt64} {d : BookSide} {idx : UInt32}
    (hi : idx ∈ placeSlots B pool.storage (locate, d)) (index : OrderMap) :
    ∃ lv pool' l r,
      OrderBook.removeOrder ⟨B locate, pool, index⟩ idx
        = (index.erase (pool.storage idx).orderId).map (fun index' => ⟨lv, pool', index'⟩) ∧
      Removal B (Function.update B locate lv) pool pool' (locate, d) idx l r := by
  obtain ⟨free, hfree⟩ := h.slots
  have hside := h.bookSide_eq hi
  obtain ⟨lvl, hl, hil⟩ := (h.levels (locate, d)).level_of_mem hi
  obtain ⟨l, r, hu⟩ := (h.levels (locate, d)).unlink (h.nodup (locate, d)) hl hil
  obtain ⟨st', hst'⟩ : ∃ st', st' = LevelRep.unlinkedFrom pool.storage idx := ⟨_, rfl⟩
  rw [← hst'] at hu
  obtain ⟨p, n, hidx⟩ := hu.keeps idx
  obtain ⟨m', hm'⟩ : ∃ m', m' = storeOrErase ((B locate).levels d) (pool.storage idx).price
    (OrderBook.levelWithout lvl idx (st' idx)) := ⟨_, rfl⟩
  rw [← hm'] at hu
  -- The pool with the slot unlinked, before it goes to the free list.
  obtain ⟨hlev, hslots⟩ := levels_frame h.levels locate d m' hu.rep fun π hπ i hi' => by
    rw [hu.frame i fun hid => hπ (h.place_unique hi' hid)]
  have hnext : ∀ i, (st' i).poolNextFree = (pool.storage i).poolNextFree := by
    intro i
    obtain ⟨p, n, hk⟩ := hu.keeps i
    rw [hk]
  have hfree' : PoolRep { pool with storage := st' } (placeSlots B pool.storage) free :=
    hfree.congr rfl rfl rfl fun i _ => hnext i
  obtain ⟨hdealloc, hcount⟩ := hfree'.deallocate hu.before
  have hbook : ∀ i, (({ pool with storage := st' }.deallocate idx).storage i).bookPart
      = (st' i).bookPart := by
    intro i
    by_cases hi : i = idx
    · subst hi
      simp [OrderPool.deallocate, Order.bookPart]
    · simp [OrderPool.deallocate, hi]
  have hcong := fun π : Place => (hlev π).congr fun i _ => hbook i
  have hafter : placeSlots (Function.update B locate ((B locate).setLevels d m'))
      ({ pool with storage := st' }.deallocate idx).storage
      = Function.update (placeSlots B pool.storage) (locate, d) (l ++ r) := by
    rw [← hu.after, ← hslots]
    exact funext fun π => (hcong π).2
  refine ⟨(B locate).setLevels d m', { pool with storage := st' }.deallocate idx, l, r, ?_,
    ⟨⟨fun π => (hcong π).1, idx :: free, ?_⟩, hu.before, hafter, fun i => ?_, rfl, hcount⟩⟩
  · rw [OrderBook.removeOrder, hside, OrderBook.removeFrom, hl]
    simp only [OrderBook.unlink_eq, ← hst']
    have hprice : (st' idx).price = (pool.storage idx).price := by rw [hidx]
    have hid : (st' idx).orderId = (pool.storage idx).orderId := by rw [hidx]
    rw [hprice, hid, hm', storeOrErase]
    split
    · exact Option.map_eq_bind.symm
    · exact Option.map_eq_bind.symm
  · rw [hafter]
    exact hdealloc
  · obtain ⟨p, n, hk⟩ := hu.keeps i
    by_cases hi : i = idx
    · subst hi
      simp [OrderPool.deallocate, Order.data, hk]
    · simp [OrderPool.deallocate, Order.data, hi, hk]

end BooksRep

/-! ### `addOrder` -/

/-- The books before and after the free slot `idx` took `order` and entered place `π`,
behind `l` and before `r`. -/
structure Entry (B B' : UInt64 → BookLevels) (pool pool' : OrderPool) (π : Place)
    (order : Order) (idx : UInt32) (l r : List UInt32) : Prop where
  rep : BooksRep B' pool'
  fresh : ∀ π', idx ∉ placeSlots B pool.storage π'
  before : placeSlots B pool.storage π = l ++ r
  served : ∀ i ∈ l, ¬ π.2.Better order.price (pool.storage i).price
  later : ∀ i ∈ r, π.2.Better order.price (pool.storage i).price
  after : placeSlots B' pool'.storage
    = Function.update (placeSlots B pool.storage) π (l ++ idx :: r)
  data : ∀ i, i ≠ idx → (pool'.storage i).data = (pool.storage i).data
  new : (pool'.storage idx).data = order.data
  capacity : pool'.capacity = pool.capacity
  free : pool'.freeCount = pool.freeCount - 1

/-- What `linkTail` makes of a side whose pool already holds the new order. -/
theorem OrderBook.linkTail_eq (b : OrderBook) {d : BookSide} {idx : UInt32}
    (h : EntriesRep b.pool.storage d (b.levels d).entries)
    (hnd : (entrySlots b.pool.storage (b.levels d).entries).Nodup)
    (hnew : idx ∉ entrySlots b.pool.storage (b.levels d).entries) (hne : idx ≠ uint32Max)
    (hs : (b.pool.storage idx).side.RestsOn d)
    (hlen : (entrySlots b.pool.storage (b.levels d).entries).length + 1 < 2 ^ 32) :
    ∃ st' m' l r,
      b.linkTail d (b.pool.storage idx).price idx (b.pool.storage idx).remainingQty
        = { toBookLevels := b.toBookLevels.setLevels d m'
            pool := { b.pool with storage := st' }
            index := b.index } ∧
      Linked b.pool.storage st' (b.levels d) m' idx l r := by
  cases hl : (b.levels d).find? (b.pool.storage idx).price with
  | none =>
      obtain ⟨l, r, hlink⟩ := h.linkFirst hl hnew hne hs
      refine ⟨_, _, l, r, ?_, hlink⟩
      have hat : b.levelAt d (b.pool.storage idx).price = {} := by
        simp [OrderBook.levelAt, hl]
      simp [OrderBook.linkTail, hat, OrderBook.putLevel, OrderBook.setLevels,
        OrderBook.modifyOrder, OrderPool.modify]
  | some lvl =>
      obtain ⟨l, r, hlink⟩ := h.linkTail hnd hl hnew hne hs hlen
      refine ⟨_, _, l, r, ?_, hlink⟩
      have hat : b.levelAt d (b.pool.storage idx).price = lvl := by
        simp [OrderBook.levelAt, hl]
      have hcount : lvl.count ≠ 0 :=
        (h _ (SortedMap.mem_entries_iff.mpr hl)).count_ne_zero
      simp [OrderBook.linkTail, hat, hcount, OrderBook.putLevel, OrderBook.setLevels,
        OrderBook.modifyOrder, OrderPool.modify, LevelRep.linkedBehind]

namespace BooksRep

variable {B : UInt64 → BookLevels} {pool : OrderPool}

/-- `addOrder` takes the first slot of the free list. -/
theorem addOrder_of_free (h : BooksRep B pool) (locate : UInt64) {order : Order}
    (hside : order.side ≠ .invalid) {idx : UInt32} {free : List UInt32}
    (hrep : PoolRep pool (placeSlots B pool.storage) (idx :: free)) (index : OrderMap) :
    ∃ lv pool' l r,
      OrderBook.addOrder ⟨B locate, pool, index⟩ order
        = (index.insert order.orderId idx).map (fun ri => (true, ⟨lv, pool', ri.2⟩)) ∧
      Entry B (Function.update B locate lv) pool pool' (locate, order.side.bookSide) order
        idx l r ∧
      PoolRep pool' (placeSlots (Function.update B locate lv) pool'.storage) free := by
  have hhead : pool.freeHead.idx = idx := hrep.chain.1
  have hne : idx ≠ uint32Max := hrep.chain.2.1
  have hfresh : ∀ π, idx ∉ placeSlots B pool.storage π :=
    fun π hi => hrep.notFree π idx hi (by simp)
  -- The pool with the order copied into the slot; the slot is on no list yet.
  obtain ⟨d, hd⟩ : ∃ d, d = order.side.bookSide := ⟨_, rfl⟩
  obtain ⟨st₁, hst₁⟩ : ∃ st₁, st₁ = Function.update pool.storage idx order := ⟨_, rfl⟩
  have hother : ∀ i, i ≠ idx → st₁ i = pool.storage i := by
    intro i hi
    rw [hst₁, Function.update_of_ne hi]
  have hself : st₁ idx = order := by rw [hst₁, Function.update_self]
  have hbook : ∀ π, ∀ i ∈ placeSlots B pool.storage π,
      (st₁ i).bookPart = (pool.storage i).bookPart := by
    intro π i hi
    rw [hother i fun e => hfresh π (e ▸ hi)]
  have hcong := fun π : Place => (h.levels π).congr (hbook π)
  have hslots₁ : placeSlots B st₁ = placeSlots B pool.storage := funext fun π => (hcong π).2
  have hslotd : entrySlots st₁ ((B locate).levels d).entries
      = placeSlots B pool.storage (locate, d) := (hcong (locate, d)).2
  have hcap := hrep.capacity
  have hlenle := h.length_le (locate, d)
  obtain ⟨st', m', l, r, hlink, hl⟩ := OrderBook.linkTail_eq
    ⟨B locate, { pool.popped with storage := st₁ }, index⟩
    (hcong (locate, d)).1 (hslotd.symm ▸ h.nodup (locate, d)) (hslotd.symm ▸ hfresh (locate, d))
    hne (by
      show (st₁ idx).side.RestsOn d
      rw [hself, hd]
      exact ⟨hside, rfl⟩) (by
      show (entrySlots st₁ ((B locate).levels d).entries).length + 1 < _
      rw [hslotd]
      omega)
  simp only [hself] at hlink
  change Linked st₁ st' ((B locate).levels d) m' idx l r at hl
  have hbefore : placeSlots B pool.storage (locate, d) = l ++ r := hslotd.symm.trans hl.before
  obtain ⟨hlev, hslots⟩ := levels_frame (fun π => (hcong π).1) locate d m' hl.rep
    fun π hπ i hi => by
      rw [hslots₁] at hi
      refine congrArg Order.bookPart (hl.frame i (fun hid => hπ ?_) fun e => hfresh π (e ▸ hi))
      rw [hslotd] at hid
      exact h.place_unique hi hid
  obtain ⟨hpop, hcount⟩ := hrep.popped hbefore
  rw [hslots₁, hl.after] at hslots
  have hdata : ∀ i, (st' i).data = (st₁ i).data := by
    intro i
    obtain ⟨p, n, hk⟩ := hl.keeps i
    simp [Order.data, hk]
  have hpool : PoolRep { pool.popped with storage := st' }
      (placeSlots (Function.update B locate ((B locate).setLevels d m')) st') free := by
    rw [hslots]
    refine hpop.congr rfl rfl rfl fun i hi => ?_
    obtain ⟨p, n, hk⟩ := hl.keeps i
    have hidx : i ≠ idx := by
      rintro rfl
      exact (List.nodup_cons.mp hrep.chain.nodup).1 hi
    show (st' i).poolNextFree = _
    rw [hk]
    show (st₁ i).poolNextFree = _
    rw [hother i hidx]
    rfl
  refine ⟨(B locate).setLevels d m', { pool.popped with storage := st' }, l, r, ?_, ?_, hpool⟩
  · rw [OrderBook.addOrder, if_neg hside]
    simp only [OrderPool.allocate_eq (hhead ▸ hne), hhead]
    have hmod : OrderBook.modifyOrder ⟨B locate, pool.popped, index⟩ idx (fun _ => order)
        = ⟨B locate, { pool.popped with storage := st₁ }, index⟩ := by
      rw [hst₁]
      rfl
    rw [hmod, ← hd, hlink]
    exact Option.map_eq_bind.symm
  · rw [← hd]
    refine ⟨⟨hlev, free, hpool⟩, hfresh, hbefore, fun i hi => ?_, fun i hi => ?_, hslots,
      fun i hi => ?_, ?_, rfl, hcount⟩
    · have hs := hl.served i hi
      rw [hself, hother i fun e => hfresh (locate, d) (by simp [hbefore, ← e, hi])] at hs
      exact hs
    · have hs := hl.later i hi
      rw [hself, hother i fun e => hfresh (locate, d) (by simp [hbefore, ← e, hi])] at hs
      exact hs
    · show (st' i).data = _
      rw [hdata, hother i hi]
    · show (st' idx).data = _
      rw [hdata, hself]

/-- `addOrder` with a free slot. -/
theorem addOrder (h : BooksRep B pool) (locate : UInt64) {order : Order}
    (hside : order.side ≠ .invalid) (hfree : pool.freeCount ≠ 0) (index : OrderMap) :
    ∃ lv pool' idx l r,
      OrderBook.addOrder ⟨B locate, pool, index⟩ order
        = (index.insert order.orderId idx).map (fun ri => (true, ⟨lv, pool', ri.2⟩)) ∧
      Entry B (Function.update B locate lv) pool pool' (locate, order.side.bookSide) order
        idx l r := by
  obtain ⟨free, hrep⟩ := h.slots
  rw [hrep.freeCount_eq] at hfree
  obtain ⟨idx, free, rfl⟩ : ∃ i f, free = i :: f :=
    List.exists_cons_of_ne_nil fun e => hfree (by simp [e])
  obtain ⟨lv, pool', l, r, heq, hent, -⟩ := h.addOrder_of_free locate hside hrep index
  exact ⟨lv, pool', idx, l, r, heq, hent⟩

/-- `addOrder` refuses an order without a side, and any order when no slot is free. -/
theorem addOrder_refused (h : BooksRep B pool) (locate : UInt64) {order : Order}
    (hr : order.side = .invalid ∨ pool.freeCount = 0) (index : OrderMap) :
    OrderBook.addOrder ⟨B locate, pool, index⟩ order
      = some (false, ⟨B locate, pool, index⟩) := by
  rw [OrderBook.addOrder]
  rcases hr with hr | hr
  · rw [if_pos hr]
  · obtain ⟨free, hrep⟩ := h.slots
    rw [hrep.freeCount_eq, List.length_eq_zero_iff, ← hrep.head_eq_nil_iff] at hr
    split
    · rfl
    · simp [OrderPool.allocate, hr]

/-! ### The two reductions -/

/-- A slot of the book gets a smaller quantity: `f` is the write to the slot. -/
theorem reduceLevel (h : BooksRep B pool) {locate : UInt64} {d : BookSide} {idx : UInt32}
    (hi : idx ∈ placeSlots B pool.storage (locate, d)) (index : OrderMap) (amount : UInt32)
    {f : Order → Order}
    (hbook : ∀ o : Order, (f o).bookPart
      = { o with remainingQty := o.remainingQty - amount }.bookPart)
    (hnext : ∀ o : Order, (f o).poolNextFree = o.poolNextFree) :
    ∃ lv,
      (OrderBook.modifyOrder ⟨B locate, pool, index⟩ idx f).reduceLevel
          (f (pool.storage idx)).side.bookSide (f (pool.storage idx)).price amount
        = ⟨lv, pool.modify idx f, index⟩ ∧
      BooksRep (Function.update B locate lv) (pool.modify idx f) ∧
      placeSlots (Function.update B locate lv) (pool.modify idx f).storage
        = placeSlots B pool.storage := by
  have hside := h.bookSide_eq hi
  obtain ⟨lvl, hl, hil⟩ := (h.levels (locate, d)).level_of_mem hi
  have hother : ∀ i, i ≠ idx → (pool.modify idx f).storage i = pool.storage i := by
    intro i hne
    simp [hne]
  have hself : (pool.modify idx f).storage idx = f (pool.storage idx) := by simp
  obtain ⟨hrep, hsame⟩ := (h.levels (locate, d)).reduce (h.nodup (locate, d)) hl hil hother
    (by rw [hself]; exact hbook _)
  obtain ⟨hlev, hslots⟩ := levels_frame h.levels locate d _ hrep fun π hπ i hi' => by
    rw [hother i fun e => hπ (h.place_unique hi' (e ▸ hi))]
  change _ = placeSlots B pool.storage (locate, d) at hsame
  rw [hsame, Function.update_eq_self] at hslots
  have hsp := hbook (pool.storage idx)
  simp only [Order.bookPart, Prod.mk.injEq] at hsp
  obtain ⟨-, -, -, hs, hp⟩ := hsp
  refine ⟨_, ?_, ⟨hlev, ?_⟩, hslots⟩
  · have hat : OrderBook.levelAt (OrderBook.modifyOrder ⟨B locate, pool, index⟩ idx f) d
        (pool.storage idx).price = lvl := by
      show (((B locate).levels d).find? _).getD {} = lvl
      rw [hl]
      rfl
    rw [hs, hp, hside, OrderBook.reduceLevel, hat]
    rfl
  · obtain ⟨free, hfree⟩ := h.slots
    refine ⟨free, ?_⟩
    rw [hslots]
    refine hfree.congr rfl rfl rfl fun i _ => ?_
    by_cases hi : i = idx
    · rw [hi, hself]
      exact hnext _
    · rw [hother i hi]

end BooksRep

end NebulaX
