import NebulaX.Proofs.Books

/-!
# `NebulaX.Proofs.Scan`: what the book answers

`getBestBid` and `getBestAsk` walk the levels and the orders in them; `availableQty` adds
quantities up along the same walk. On books in step with the pool both end, and both are
functions of the queue of the side:

* `BooksRep.getBest_eq`: the first order of the queue that the taker does not skip;
* `BooksRep.availableQty_eq`: `Queue.available`.
-/

set_option autoImplicit false

namespace NebulaX

open NebulaX.Lib

/-- The order in a slot, without its links. -/
def OrderPool.info (pool : OrderPool) (i : UInt32) : OrderInfo := (pool.storage i).toOrderInfo

namespace OrderBook

/-- The walk along one level finds the first order of another user. -/
theorem scanLevel_eq {st : UInt32 → Order} {u : UInt64} {fuel : Nat} {head : UInt32}
    {xs : List UInt32} (hc : Chain (fun i => (st i).nextIdx) uint32Max head xs)
    (hf : xs.length < fuel) :
    scanLevel st u fuel head = some (xs.find? fun i => (st i).userId ≠ u) := by
  refine Chain.loop_induction (motive := fun fuel head xs =>
    scanLevel st u fuel head = some (xs.find? fun i => (st i).userId ≠ u)) ?_ ?_ hc hf
  · intro fuel
    exact if_pos rfl
  · intro fuel x xs hne ih
    simp only [scanLevel, if_neg hne, List.find?_cons]
    by_cases hu : (st x).userId = u
    · simpa [hu] using ih
    · simp [hu]

/-- The walk over the levels finds the first order of another user. -/
theorem scanLevels_eq {pool : OrderPool} {d : BookSide} {u : UInt64}
    {es : List (UInt32 × PriceLevel)} (h : EntriesRep pool.storage d es)
    (hf : ∀ e ∈ es, (e.2.slots pool.storage).length < pool.capacity + 1) :
    scanLevels pool u es
      = some ((entrySlots pool.storage es).find? fun i => (pool.storage i).userId ≠ u) := by
  induction es with
  | nil => rfl
  | cons e es ih =>
      obtain ⟨he, hes⟩ := EntriesRep.cons_iff.mp h
      have hscan := scanLevel_eq (u := u) he.list.chain (hf e (by simp))
      have hrest := ih hes fun e' he' => hf e' (by simp [he'])
      simp only [scanLevels, hscan, Option.bind_eq_bind, Option.bind_some, entrySlots_cons,
        List.find?_append]
      cases (e.2.slots pool.storage).find? fun i => (pool.storage i).userId ≠ u with
      | none => simpa using hrest
      | some i => rfl

/-- The walk along one level adds the quantities. -/
theorem sumLevel_eq {st : UInt32 → Order} {fuel : Nat} {head : UInt32} (total : UInt32)
    {xs : List UInt32} (hc : Chain (fun i => (st i).nextIdx) uint32Max head xs)
    (hf : xs.length < fuel) :
    sumLevel st fuel head total
      = some (total + (xs.map fun i => (st i).remainingQty).sum) := by
  refine Chain.loop_induction (motive := fun fuel head xs => ∀ total, sumLevel st fuel head total
    = some (total + (xs.map fun i => (st i).remainingQty).sum)) ?_ ?_ hc hf total
  · intro fuel total
    simp [sumLevel]
  · intro fuel x xs hne ih total
    simp [sumLevel, hne, ih, add_assoc]

/-- The walk over the levels adds what the queue offers. -/
theorem sumLevels_eq {pool : OrderPool} {d : BookSide} {price total : UInt32}
    {es : List (UInt32 × PriceLevel)} (h : EntriesRep pool.storage d es)
    (hf : ∀ e ∈ es, (e.2.slots pool.storage).length < pool.capacity + 1) :
    sumLevels pool d price es total
      = some (total + Queue.available d price ((entrySlots pool.storage es).map pool.info)) := by
  induction es generalizing total with
  | nil => simp [sumLevels, Queue.available]
  | cons e es ih =>
      obtain ⟨he, hes⟩ := EntriesRep.cons_iff.mp h
      have hsum := fun total => sumLevel_eq total he.list.chain (hf e (by simp))
      have hprice : ∀ o ∈ (e.2.slots pool.storage).map pool.info, o.price = e.1 := by
        intro o ho
        obtain ⟨i, hi, rfl⟩ := List.mem_map.mp ho
        exact (he.orders i hi).2
      simp only [sumLevels, entrySlots_cons, List.map_append]
      by_cases hb : d.Better price e.1
      · -- The level is worse than the price asked for, and it is not empty.
        obtain ⟨x, xs, hx⟩ := List.exists_cons_of_ne_nil he.nonempty
        have hx' : (pool.info x).price = e.1 := hprice _ (by simp [hx])
        simp [hb, hx, Queue.available, hx']
      · have htake : (((e.2.slots pool.storage).map pool.info) ++
            (entrySlots pool.storage es).map pool.info).takeWhile
              (fun o => ¬ d.Better price o.price)
            = (e.2.slots pool.storage).map pool.info ++
              ((entrySlots pool.storage es).map pool.info).takeWhile
                (fun o => ¬ d.Better price o.price) := by
          refine List.takeWhile_append_of_pos fun o ho => ?_
          rw [hprice o ho]
          simpa using hb
        rw [if_neg hb, hsum]
        simp only [Option.bind_eq_bind, Option.bind_some]
        rw [ih hes fun e' he' => hf e' (by simp [he'])]
        simp only [Queue.available, htake, List.map_append, List.sum_append, List.map_map]
        rw [add_assoc]
        rfl

end OrderBook

namespace BooksRep

variable {B : UInt64 → BookLevels} {pool : OrderPool}

/-- Every level fits into the step bound of the walks. -/
theorem level_length_lt (h : BooksRep B pool) (π : Place) :
    ∀ e ∈ ((B π.1).levels π.2).entries,
      (e.2.slots pool.storage).length < pool.capacity + 1 := by
  intro e he
  have hle := h.length_le π
  have hsub : (e.2.slots pool.storage).length ≤ (placeSlots B pool.storage π).length := by
    obtain ⟨pre, post, hsplit⟩ := List.append_of_mem he
    simp only [placeSlots, hsplit, entrySlots_append, entrySlots_cons, List.length_append]
    omega
  omega

/-- `getBestBid` and `getBestAsk`: the first order of the queue the user does not skip. -/
theorem getBest_eq (h : BooksRep B pool) (locate : UInt64) (d : BookSide) (u : UInt64)
    (index : OrderMap) :
    OrderBook.getBest ⟨B locate, pool, index⟩ d u
      = some ((placeSlots B pool.storage (locate, d)).find? fun i =>
          ¬ Skips u (pool.info i)) := by
  have hlev := h.levels (locate, d)
  have hlt := h.level_length_lt (locate, d)
  unfold OrderBook.getBest placeSlots
  dsimp only
  cases hes : ((B locate).levels d).entries with
  | nil => simp
  | cons e es =>
      rw [hes] at hlev hlt
      simp only
      by_cases hu : u = 0
      · -- Nobody is skipped: the head of the first level is the head of the queue.
        obtain ⟨he, -⟩ := EntriesRep.cons_iff.mp hlev
        obtain ⟨x, xs, hx⟩ := List.exists_cons_of_ne_nil he.nonempty
        have hhead : e.2.headIdx = x := by
          rw [he.list.head_eq, hx]
          rfl
        simp [hu, he.count_ne_zero, hhead, hx, Skips]
      · rw [if_neg hu, OrderBook.scanLevels_eq hlev hlt]
        congr 1
        refine congrArg (fun p => List.find? p _) (funext fun i => ?_)
        simp [Skips, hu, OrderPool.info]

/-- `availableQty`: what the queue of the other side offers. -/
theorem availableQty_eq (h : BooksRep B pool) (locate : UInt64) (side : Side)
    (price : UInt32) (index : OrderMap) :
    OrderBook.availableQty ⟨B locate, pool, index⟩ side price
      = some (Queue.available side.bookSide.opposite price
          ((placeSlots B pool.storage (locate, side.bookSide.opposite)).map pool.info)) := by
  have hsum : ∀ d, OrderBook.sumLevels pool d price ((B locate).levels d).entries 0
      = some (Queue.available d price ((placeSlots B pool.storage (locate, d)).map pool.info)) := by
    intro d
    rw [OrderBook.sumLevels_eq (h.levels (locate, d)) (h.level_length_lt (locate, d)), zero_add]
    rfl
  cases side with
  | buy => exact hsum .ask
  | sell => exact hsum .bid
  | invalid => exact hsum .bid
  | other => exact hsum .bid

end BooksRep

end NebulaX
