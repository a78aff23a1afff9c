import NebulaX.Proofs.Scan

/-!
# `NebulaX.Proofs.Abstraction`: the books, the pool and the index as an exchange

`Rep B pool index` adds the index to the invariant of the books: the table is well formed,
what it finds is a resting order of that id, and no two resting orders share an id. It does
not say that the table finds every resting order; it may have dropped one.

`absOf` reads the abstract exchange off a state. The operations of the book are then steps
of the exchange:

* `Rep.removeOrder` is `Exchange.remove`;
* `Rep.addOrder` is `Exchange.enter`, for a reference no resting order has;
* `Rep.reduceQtyCancel` is `Exchange.reduce`, and `Rep.trade` is the partial fill.

`Shrinks` is what the matching loop does to the slots: some leave, none moves, and no slot
changes its price or its arrival number.
-/

set_option autoImplicit false

namespace NebulaX

open NebulaX.Lib

/-! ### Queues -/

namespace Queue

/-- Entering a queue at the place where the prices get worse. -/
theorem insert_split {d : BookSide} {o : OrderInfo} {l r : List OrderInfo}
    (hl : ∀ x ∈ l, ¬ d.Better o.price x.price) (hr : ∀ x ∈ r, d.Better o.price x.price) :
    insert d o (l ++ r) = l ++ o :: r := by
  induction l with
  | nil =>
      cases r with
      | nil => rfl
      | cons x r => simp [insert, hr x (by simp)]
  | cons x l ih =>
      simp only [List.cons_append, insert, if_neg (hl x (by simp))]
      rw [ih fun y hy => hl y (by simp [hy])]

/-- Taking the one order of a reference off a queue. -/
theorem without_split {o : OrderInfo} {l r : List OrderInfo}
    (h : ∀ x ∈ l ++ r, x.orderId ≠ o.orderId) : without o.orderId (l ++ o :: r) = l ++ r := by
  have hl : l.filter (fun x => x.orderId ≠ o.orderId) = l :=
    List.filter_eq_self.mpr fun x hx => by simpa using h x (by simp [hx])
  have hr : r.filter (fun x => x.orderId ≠ o.orderId) = r :=
    List.filter_eq_self.mpr fun x hx => by simpa using h x (by simp [hx])
  rw [without, List.filter_append, hl, List.filter_cons_of_neg (by simp), hr]

/-- Changing the one order of a reference in place. -/
theorem modify_split {o : OrderInfo} {f : OrderInfo → OrderInfo} {l r : List OrderInfo}
    (h : ∀ x ∈ l ++ r, x.orderId ≠ o.orderId) :
    modify o.orderId f (l ++ o :: r) = l ++ f o :: r := by
  have hsame : ∀ q : List OrderInfo, (∀ x ∈ q, x.orderId ≠ o.orderId) →
      modify o.orderId f q = q := by
    intro q hq
    rw [modify, List.map_congr_left fun x hx => if_neg (hq x hx), List.map_id']
  have happ : modify o.orderId f (l ++ o :: r)
      = modify o.orderId f l ++ f o :: modify o.orderId f r := by
    simp [modify]
  rw [happ, hsame l fun x hx => h x (by simp [hx]), hsame r fun x hx => h x (by simp [hx])]

end Queue

/-! ### The invariant and the abstraction -/

/-- The books, the pool and the index are in step. -/
structure Rep (B : UInt64 → BookLevels) (pool : OrderPool) (index : OrderMap) : Prop
    extends BooksRep B pool where
  wf : index.Wf
  sound : ∀ k i, index.lookup k = some i →
    (pool.info i).orderId = k ∧ ∃ π, i ∈ placeSlots B pool.storage π
  refs : ∀ π π' i j, i ∈ placeSlots B pool.storage π → j ∈ placeSlots B pool.storage π' →
    (pool.info i).orderId = (pool.info j).orderId → i = j

/-- The exchange a state stands for. -/
def absOf (B : UInt64 → BookLevels) (pool : OrderPool) (index : OrderMap) : Exchange where
  queues π := (placeSlots B pool.storage π).map pool.info
  indexed k := (index.lookup k).isSome
  free := pool.freeCount

/-- Slots leave, none moves, and prices and arrival numbers stay. -/
structure Shrinks (B B' : UInt64 → BookLevels) (pool pool' : OrderPool) : Prop where
  sublist : ∀ π, (placeSlots B' pool'.storage π).Sublist (placeSlots B pool.storage π)
  sequence : ∀ i, (pool'.storage i).sequence = (pool.storage i).sequence
  price : ∀ i, (pool'.storage i).price = (pool.storage i).price

namespace Shrinks

variable {B B' B'' : UInt64 → BookLevels} {pool pool' pool'' : OrderPool}

theorem refl (B : UInt64 → BookLevels) (pool : OrderPool) : Shrinks B B pool pool :=
  ⟨fun _ => List.Sublist.refl _, fun _ => rfl, fun _ => rfl⟩

theorem trans (h : Shrinks B B' pool pool') (h' : Shrinks B' B'' pool' pool'') :
    Shrinks B B'' pool pool'' :=
  ⟨fun π => (h'.sublist π).trans (h.sublist π),
    fun i => (h'.sequence i).trans (h.sequence i), fun i => (h'.price i).trans (h.price i)⟩

end Shrinks

/-- Equal data is an equal order. -/
theorem info_of_data {pool pool' : OrderPool} {i j : UInt32}
    (h : (pool'.storage i).data = (pool.storage j).data) : pool'.info i = pool.info j :=
  congrArg Prod.fst h

namespace Rep

variable {B B' : UInt64 → BookLevels} {pool pool' : OrderPool} {index : OrderMap}
variable {locate : UInt64} {d : BookSide} {idx : UInt32} {l r : List UInt32}

/-- The other slots of a side hold other references. -/
theorem ne_of_split (h : Rep B pool index) {π : Place}
    (hs : placeSlots B pool.storage π = l ++ idx :: r) :
    ∀ x ∈ l.map pool.info ++ r.map pool.info, x.orderId ≠ (pool.info idx).orderId := by
  intro x hx e
  rw [← List.map_append] at hx
  obtain ⟨i, hi, rfl⟩ := List.mem_map.mp hx
  have hnd : (l ++ idx :: r).Nodup := hs ▸ h.nodup π
  have himem : i ∈ placeSlots B pool.storage π := by
    rw [hs]
    simp only [List.mem_append, List.mem_cons] at hi ⊢
    tauto
  have heq := h.refs π π i idx himem (by simp [hs]) e
  exact (List.nodup_cons.mp (List.nodup_middle.mp hnd)).1 (heq ▸ hi)

/-- `removeOrder` of a resting order. -/
theorem removeOrder (h : Rep B pool index) (hi : idx ∈ placeSlots B pool.storage (locate, d)) :
    ∃ b', OrderBook.removeOrder ⟨B locate, pool, index⟩ idx = some b' ∧
      Rep (Function.update B locate b'.toBookLevels) b'.pool b'.index ∧
      absOf (Function.update B locate b'.toBookLevels) b'.pool b'.index
        = (absOf B pool index).remove locate (pool.info idx) ∧
      Shrinks B (Function.update B locate b'.toBookLevels) pool b'.pool ∧
      b'.pool.capacity = pool.capacity := by
  obtain ⟨lv, pool', l, r, heq, hrem⟩ := h.toBooksRep.removeOrder hi index
  obtain ⟨index', her, hwf, hlook⟩ := OrderMap.erase_spec h.wf (pool.storage idx).orderId
  rw [her] at heq
  have hinfo : pool'.info = pool.info := funext fun i => info_of_data (hrem.data i)
  have hside : (pool.info idx).side.bookSide = d := h.bookSide_eq hi
  -- The slots afterwards are the old ones but `idx`.
  have hsub : ∀ π, (placeSlots (Function.update B locate lv) pool'.storage π).Sublist
      (placeSlots B pool.storage π) := by
    intro π
    rw [hrem.after]
    by_cases hπ : π = (locate, d)
    · subst hπ
      rw [Function.update_self, hrem.before]
      exact (List.Sublist.refl l).append (List.sublist_cons_self idx r)
    · rw [Function.update_of_ne hπ]
  refine ⟨_, heq, ⟨hrem.rep, hwf, fun k i hk => ?_, fun π π' i j hi' hj' hij => ?_⟩, ?_,
    ⟨hsub, fun i => congrArg Prod.snd (hrem.data i), fun i =>
      congrArg (fun x => x.1.price) (hrem.data i)⟩, hrem.capacity⟩
  · -- A reference the table still finds is not the erased one.
    change index'.lookup k = some i at hk
    rw [hlook] at hk
    by_cases hkid : k = (pool.storage idx).orderId
    · rw [if_pos hkid] at hk
      exact absurd hk (by simp)
    · rw [if_neg hkid] at hk
      obtain ⟨hid, π, hπ⟩ := h.sound k i hk
      refine ⟨by rw [hinfo]; exact hid, π, ?_⟩
      show i ∈ placeSlots (Function.update B locate lv) pool'.storage π
      rw [hrem.after]
      by_cases hloc : π = (locate, d)
      · subst hloc
        rw [hrem.before] at hπ
        rw [Function.update_self]
        have hne : i ≠ idx := by
          rintro rfl
          exact hkid hid.symm
        simp only [List.mem_append, List.mem_cons] at hπ ⊢
        tauto
      · rw [Function.update_of_ne hloc]
        exact hπ
  · change (pool'.info i).orderId = (pool'.info j).orderId at hij
    rw [hinfo] at hij
    exact h.refs π π' i j ((hsub π).subset hi') ((hsub π').subset hj') hij
  · simp only [absOf, Exchange.remove, Exchange.mk.injEq]
    refine ⟨funext fun π => ?_, funext fun k => ?_, hrem.free⟩
    · rw [hrem.after, hinfo, hside]
      by_cases hπ : π = (locate, d)
      · subst hπ
        rw [Function.update_self, Function.update_self, hrem.before, List.map_append,
          List.map_append, List.map_cons, Queue.without_split (h.ne_of_split hrem.before)]
      · rw [Function.update_of_ne hπ, Function.update_of_ne hπ]
    · rw [hlook]
      by_cases hk : k = (pool.storage idx).orderId
      · subst hk
        simp [OrderPool.info]
      · have hk' : k ≠ (pool.info idx).orderId := hk
        rw [if_neg hk, Function.update_of_ne hk']

/-- What `addOrder` with a free slot makes of the queues, whatever the index does. -/
theorem queues_of_entry {order : Order} {B' : UInt64 → BookLevels}
    (h : Entry B B' pool pool' (locate, order.side.bookSide) order idx l r) :
    (fun π => (placeSlots B' pool'.storage π).map pool'.info)
      = Function.update (fun π => (placeSlots B pool.storage π).map pool.info)
          (locate, order.side.bookSide)
          (Queue.insert order.side.bookSide order.toOrderInfo
            ((placeSlots B pool.storage (locate, order.side.bookSide)).map pool.info)) := by
  have hmap : ∀ xs : List UInt32, idx ∉ xs → xs.map pool'.info = xs.map pool.info := by
    intro xs hxs
    refine List.map_congr_left fun i hi => info_of_data (h.data i ?_)
    rintro rfl
    exact hxs hi
  have hnew : pool'.info idx = order.toOrderInfo := congrArg Prod.fst h.new
  have hfresh := h.fresh (locate, order.side.bookSide)
  rw [h.before] at hfresh
  rw [List.mem_append, not_or] at hfresh
  funext π
  rw [h.after]
  by_cases hπ : π = (locate, order.side.bookSide)
  · subst hπ
    rw [Function.update_self, Function.update_self, List.map_append, List.map_cons, hnew,
      hmap l hfresh.1, hmap r hfresh.2, h.before, List.map_append, Queue.insert_split]
    · intro x hx
      obtain ⟨i, hi, rfl⟩ := List.mem_map.mp hx
      exact h.served i hi
    · intro x hx
      obtain ⟨i, hi, rfl⟩ := List.mem_map.mp hx
      exact h.later i hi
  · rw [Function.update_of_ne hπ, Function.update_of_ne hπ, hmap _ (h.fresh π)]

/-- `addOrder` with a free slot, for a reference no resting order has. -/
theorem addOrder (h : Rep B pool index) (locate : UInt64) {order : Order}
    (hside : order.side ≠ .invalid) (hfree : pool.freeCount ≠ 0)
    (hnew : ∀ π, ∀ o ∈ (absOf B pool index).queues π, o.orderId ≠ order.orderId) :
    ∃ b' idx l r, OrderBook.addOrder ⟨B locate, pool, index⟩ order = some (true, b') ∧
      Rep (Function.update B locate b'.toBookLevels) b'.pool b'.index ∧
      absOf (Function.update B locate b'.toBookLevels) b'.pool b'.index
        = (absOf B pool index).enter (!decide (index.DropsInsert order.orderId)) locate
          order.toOrderInfo ∧
      Entry B (Function.update B locate b'.toBookLevels) pool b'.pool
        (locate, order.side.bookSide) order idx l r := by
  obtain ⟨lv, pool', idx, l, r, heq, hent⟩ :=
    h.toBooksRep.addOrder locate hside hfree index
  have hother : ∀ π i, i ∈ placeSlots B pool.storage π →
      (pool.info i).orderId ≠ order.orderId :=
    fun π i hi => hnew π _ (List.mem_map.mpr ⟨i, hi, rfl⟩)
  have habsent : index.lookup order.orderId = none := by
    rw [Option.eq_none_iff_forall_ne_some]
    intro i hi
    obtain ⟨hid, π, hπ⟩ := h.sound _ i hi
    exact hother π i hπ hid
  have hold : ∀ π i, i ∈ placeSlots B pool.storage π → pool'.info i = pool.info i := by
    intro π i hi
    refine info_of_data (hent.data i ?_)
    rintro rfl
    exact hent.fresh π hi
  have hidx : (pool'.info idx).orderId = order.orderId :=
    congrArg (fun x => x.1.orderId) hent.new
  have hmem : ∀ π i, i ∈ placeSlots (Function.update B locate lv) pool'.storage π ↔
      (π = (locate, order.side.bookSide) ∧ i = idx) ∨ i ∈ placeSlots B pool.storage π := by
    intro π i
    rw [hent.after]
    by_cases hπ : π = (locate, order.side.bookSide)
    · subst hπ
      rw [Function.update_self, hent.before]
      simp only [List.mem_append, List.mem_cons, true_and]
      tauto
    · rw [Function.update_of_ne hπ]
      simp [hπ]
  have hrefs : ∀ π π' i j, i ∈ placeSlots (Function.update B locate lv) pool'.storage π →
      j ∈ placeSlots (Function.update B locate lv) pool'.storage π' →
      (pool'.info i).orderId = (pool'.info j).orderId → i = j := by
    intro π π' i j hi hj hij
    rw [hmem] at hi hj
    rcases hi with ⟨-, rfl⟩ | hi
    · rcases hj with ⟨-, rfl⟩ | hj
      · rfl
      · rw [hidx, hold π' j hj] at hij
        exact absurd hij.symm (hother π' j hj)
    · rcases hj with ⟨-, rfl⟩ | hj
      · rw [hidx, hold π i hi] at hij
        exact absurd hij (hother π i hi)
      · rw [hold π i hi, hold π' j hj] at hij
        exact h.refs π π' i j hi hj hij
  have hsound : ∀ k i, index.lookup k = some i → (pool'.info i).orderId = k ∧
      ∃ π, i ∈ placeSlots (Function.update B locate lv) pool'.storage π := by
    intro k i hk
    obtain ⟨hid, π, hπ⟩ := h.sound k i hk
    exact ⟨by rw [hold π i hπ]; exact hid, π, (hmem π i).mpr (Or.inr hπ)⟩
  rcases OrderMap.insert_spec h.wf habsent idx with ⟨hdrop, hins⟩ |
    ⟨hdrop, index', hins, hwf, hlook⟩
  · -- The table drops the entry: it answers as before.
    rw [hins] at heq
    refine ⟨_, idx, l, r, heq, ⟨hent.rep, h.wf, hsound, hrefs⟩, ?_, hent⟩
    simp only [absOf, Exchange.enter, hdrop, Exchange.mk.injEq]
    exact ⟨queues_of_entry hent, by simp, hent.free⟩
  · rw [hins] at heq
    refine ⟨_, idx, l, r, heq, ⟨hent.rep, hwf, fun k i hk => ?_, hrefs⟩, ?_, hent⟩
    · change index'.lookup k = some i at hk
      rw [hlook] at hk
      by_cases hkid : k = order.orderId
      · rw [if_pos hkid, Option.some.injEq] at hk
        subst hk
        exact ⟨hidx.trans hkid.symm, _, (hmem _ _).mpr (Or.inl ⟨rfl, rfl⟩)⟩
      · rw [if_neg hkid] at hk
        exact hsound k i hk
    · simp only [absOf, Exchange.enter, hdrop, Exchange.mk.injEq]
      refine ⟨queues_of_entry hent, funext fun k => ?_, hent.free⟩
      rw [hlook]
      by_cases hk : k = order.orderId
      · subst hk
        simp
      · rw [if_neg hk]
        simp [hk]

/-- A write to one resting order that moves nothing. -/
theorem of_write (h : Rep B pool index) (hb : BooksRep B' pool')
    (hslots : placeSlots B' pool'.storage = placeSlots B pool.storage)
    (hother : ∀ i, i ≠ idx → pool'.info i = pool.info i)
    {f : OrderInfo → OrderInfo} (hidx : pool'.info idx = f (pool.info idx))
    (hid : ∀ o, (f o).orderId = o.orderId) (hfree : pool'.freeCount = pool.freeCount)
    (hi : idx ∈ placeSlots B pool.storage (locate, d)) :
    Rep B' pool' index ∧
      absOf B' pool' index = { absOf B pool index with
        queues := Function.update (absOf B pool index).queues (locate, d)
          (Queue.modify (pool.info idx).orderId f ((absOf B pool index).queues (locate, d))) } := by
  have hids : ∀ i, (pool'.info i).orderId = (pool.info i).orderId := by
    intro i
    by_cases hne : i = idx
    · rw [hne, hidx, hid]
    · rw [hother i hne]
  refine ⟨⟨hb, h.wf, fun k i hk => ?_, fun π π' i j hi hj hij => ?_⟩, ?_⟩
  · rw [hids, hslots]
    exact h.sound k i hk
  · rw [hslots] at hi hj
    rw [hids, hids] at hij
    exact h.refs π π' i j hi hj hij
  · have hmap : ∀ xs : List UInt32, idx ∉ xs → xs.map pool'.info = xs.map pool.info := by
      intro xs hxs
      refine List.map_congr_left fun i hmem => hother i ?_
      rintro rfl
      exact hxs hmem
    simp only [absOf, Exchange.mk.injEq]
    refine ⟨funext fun π => ?_, trivial, hfree⟩
    rw [hslots]
    by_cases hπ : π = (locate, d)
    · subst hπ
      obtain ⟨l, r, hs⟩ := List.append_of_mem hi
      have hnd : (l ++ idx :: r).Nodup := hs ▸ h.nodup (locate, d)
      have hout := (List.nodup_cons.mp (List.nodup_middle.mp hnd)).1
      rw [List.mem_append, not_or] at hout
      rw [Function.update_self, hs, List.map_append, List.map_append, List.map_cons,
        List.map_cons, hidx, hmap l hout.1, hmap r hout.2,
        Queue.modify_split (h.ne_of_split hs)]
    · rw [Function.update_of_ne hπ, hmap]
      exact fun hi' => hπ (h.place_unique hi' hi)

/-- A write to the quantity and the status of a resting order, with the level adjusted. -/
theorem of_reduce (h : Rep B pool index) (hi : idx ∈ placeSlots B pool.storage (locate, d))
    (amount : UInt32) {f : Order → Order} {g : OrderInfo → OrderInfo}
    (hbook : ∀ o : Order, (f o).bookPart
      = { o with remainingQty := o.remainingQty - amount }.bookPart)
    (hdata : ∀ o : Order, (f o).data = (g o.toOrderInfo, o.sequence))
    (hnext : ∀ o : Order, (f o).poolNextFree = o.poolNextFree)
    (hid : ∀ o, (g o).orderId = o.orderId) :
    ∃ lv, (OrderBook.modifyOrder ⟨B locate, pool, index⟩ idx f).reduceLevel
          (f (pool.storage idx)).side.bookSide (f (pool.storage idx)).price amount
        = ⟨lv, pool.modify idx f, index⟩ ∧
      Rep (Function.update B locate lv) (pool.modify idx f) index ∧
      absOf (Function.update B locate lv) (pool.modify idx f) index
        = { absOf B pool index with
            queues := Function.update (absOf B pool index).queues (locate, d)
              (Queue.modify (pool.info idx).orderId g
                ((absOf B pool index).queues (locate, d))) } ∧
      placeSlots (Function.update B locate lv) (pool.modify idx f).storage
        = placeSlots B pool.storage ∧
      Shrinks B (Function.update B locate lv) pool (pool.modify idx f) := by
  obtain ⟨lv, heq, hrep, hslots⟩ := h.toBooksRep.reduceLevel hi index amount hbook hnext
  obtain ⟨hrep', habs⟩ := h.of_write hrep hslots
    (fun i hne => by simp [OrderPool.info, hne]) (f := g)
    (by
      simp only [OrderPool.info, OrderPool.storage_modify, Function.update_self]
      exact congrArg Prod.fst (hdata _)) hid rfl hi
  refine ⟨lv, heq, hrep', habs, hslots, ⟨fun π => by rw [hslots], fun i => ?_, fun i => ?_⟩⟩
  · by_cases hne : i = idx
    · subst hne
      rw [OrderPool.storage_modify, Function.update_self]
      exact congrArg Prod.snd (hdata (pool.storage i))
    · simp [hne]
  · by_cases hne : i = idx
    · subst hne
      rw [OrderPool.storage_modify, Function.update_self]
      exact congrArg (fun x => x.2.2.2.2) (hbook (pool.storage i))
    · simp [hne]

/-- `reduceQtyCancel` of a resting order. -/
theorem reduceQtyCancel (h : Rep B pool index)
    (hi : idx ∈ placeSlots B pool.storage (locate, d)) (shares : UInt32) :
    ∃ b', OrderBook.reduceQtyCancel ⟨B locate, pool, index⟩ idx shares = b' ∧
      Rep (Function.update B locate b'.toBookLevels) b'.pool b'.index ∧
      absOf (Function.update B locate b'.toBookLevels) b'.pool b'.index
        = (absOf B pool index).reduce locate (pool.info idx) shares ∧
      Shrinks B (Function.update B locate b'.toBookLevels) pool b'.pool := by
  obtain ⟨lv, heq, hrep, habs, -, hsh⟩ := h.of_reduce hi shares
    (f := fun o => { o with remainingQty := o.remainingQty - shares })
    (g := fun o => { o with remainingQty := o.remainingQty - shares })
    (fun _ => rfl) (fun _ => rfl) (fun _ => rfl) fun _ => rfl
  have hside : (pool.info idx).side.bookSide = d := h.bookSide_eq hi
  refine ⟨⟨lv, _, index⟩, ?_, hrep, ?_, hsh⟩
  · refine Eq.trans ?_ heq
    simp [OrderBook.reduceQtyCancel, OrderBook.modifyOrder]
  · refine habs.trans ?_
    rw [Exchange.reduce, hside]

end Rep

end NebulaX
