import NebulaX.Engine.Snapshot
import NebulaX.Proofs.Refill

/-!
# `NebulaX.Proofs.Snapshot`: a snapshot brings the book back

`saveSnapshot` writes the resting orders in serving order (`saveSnapshot_eq`), bids first.
`loadSnapshot` adds them one by one, each behind the earlier ones of its level
(`loadRecords_spec`), so every level is rebuilt in its own order. `loadSnapshot_saveSnapshot` is
the round trip.
-/

set_option autoImplicit false

namespace NebulaX

open NebulaX.Lib

/-- The largest of some numbers, or 0 if there are none. -/
def LargestOf (xs : List UInt64) (m : UInt64) : Prop :=
  (∀ x ∈ xs, x ≤ m) ∧ (m ∈ xs ∨ xs = [] ∧ m = 0)

/-- A running maximum, one number at a time. -/
theorem largestOf_foldl (f : Order → UInt64) (xs : List Order) :
    LargestOf (xs.map f) (xs.foldl (fun m o => if m < f o then f o else m) 0) := by
  induction xs using List.reverseRecOn with
  | nil => exact ⟨fun x hx => absurd hx (by simp), Or.inr ⟨rfl, rfl⟩⟩
  | append_singleton xs o ih =>
      obtain ⟨hle, hmem⟩ := ih
      rw [List.foldl_append, List.map_append]
      simp only [List.foldl_cons, List.foldl_nil, List.map_cons, List.map_nil]
      obtain ⟨m, hm⟩ : ∃ m, m = xs.foldl (fun m o => if m < f o then f o else m) 0 := ⟨_, rfl⟩
      rw [← hm] at hle hmem ⊢
      by_cases hlt : m < f o
      · rw [if_pos hlt]
        refine ⟨fun x hx => ?_, Or.inl (by simp)⟩
        rcases List.mem_append.mp hx with hx | hx
        · exact UInt64.le_of_lt (UInt64.lt_of_le_of_lt (hle x hx) hlt)
        · rw [List.mem_singleton.mp hx]
          exact UInt64.le_refl _
      · rw [if_neg hlt]
        have hof : f o ≤ m := UInt64.not_lt.mp hlt
        refine ⟨fun x hx => ?_, Or.inl ?_⟩
        · rcases List.mem_append.mp hx with hx | hx
          · exact hle x hx
          · rw [List.mem_singleton.mp hx]
            exact hof
        · rcases hmem with hmem | ⟨-, rfl⟩
          · exact List.mem_append_left _ hmem
          · -- Nothing is above 0, so the number is 0 itself.
            have h0 : f o = 0 := UInt64.le_zero_iff.mp hof
            simp [h0]

/-- The maxima after some orders. -/
theorem Maxima.foldl_see (m : Maxima) (xs : List Order) :
    xs.foldl Maxima.see m
      = ⟨xs.foldl (fun a o => if a < o.sequence then o.sequence else a) m.maxSeq,
          xs.foldl (fun a o => if a < o.orderId then o.orderId else a) m.maxId⟩ := by
  induction xs generalizing m with
  | nil => rfl
  | cons o xs ih =>
      rw [List.foldl_cons, ih]
      rfl

/-! ### Saving -/

namespace OrderBook

/-- The walk along one level writes its orders. -/
theorem saveLevel_eq {st : UInt32 → Order} {fuel : Nat} {head : UInt32}
    (s : Maxima × List Order) {xs : List UInt32}
    (hc : Chain (fun i => (st i).nextIdx) uint32Max head xs) (hf : xs.length < fuel) :
    saveLevel st fuel head s = some ((xs.map st).foldl Maxima.see s.1, s.2 ++ xs.map st) := by
  refine Chain.loop_induction (motive := fun fuel head xs => ∀ s : Maxima × List Order,
    saveLevel st fuel head s = some ((xs.map st).foldl Maxima.see s.1, s.2 ++ xs.map st))
    ?_ ?_ hc hf s
  · intro fuel s
    simp [saveLevel]
  · intro fuel x xs hne ih s
    simp [saveLevel, hne, ih]

/-- The walk over the levels writes the orders of the side. -/
theorem saveLevels_eq {pool : OrderPool} {d : BookSide} {es : List (UInt32 × PriceLevel)}
    (h : EntriesRep pool.storage d es)
    (hf : ∀ e ∈ es, (e.2.slots pool.storage).length < pool.capacity + 1)
    (s : Maxima × List Order) :
    saveLevels pool es s
      = some (((entrySlots pool.storage es).map pool.storage).foldl Maxima.see s.1,
          s.2 ++ (entrySlots pool.storage es).map pool.storage) := by
  induction es generalizing s with
  | nil => simp [saveLevels]
  | cons e es ih =>
      obtain ⟨he, hes⟩ := EntriesRep.cons_iff.mp h
      simp only [saveLevels, saveLevel_eq s he.list.chain (hf e (by simp)),
        Option.bind_eq_bind, Option.bind_some]
      rw [ih hes fun e' he' => hf e' (by simp [he'])]
      simp

end OrderBook

/-- The resting orders of a book as `saveSnapshot` meets them. -/
def bookOrders (B : UInt64 → BookLevels) (pool : OrderPool) (locate : UInt64) : List Order :=
  (placeSlots B pool.storage (locate, .bid) ++ placeSlots B pool.storage (locate, .ask)).map
    pool.storage

/-- `saveSnapshot` writes the resting orders. -/
theorem BooksRep.saveSnapshot_eq {B : UInt64 → BookLevels} {pool : OrderPool}
    (h : BooksRep B pool) (locate : UInt64) (index : OrderMap) :
    OrderBook.saveSnapshot ⟨B locate, pool, index⟩
      = some (((bookOrders B pool locate).foldl Maxima.see {}).maxId,
          ⟨snapshotMagic, bookOrders B pool locate⟩) := by
  have hbids := OrderBook.saveLevels_eq (h.levels (locate, .bid))
    (h.level_length_lt (locate, .bid)) ({}, [])
  have hasks := OrderBook.saveLevels_eq (h.levels (locate, .ask))
    (h.level_length_lt (locate, .ask))
  change OrderBook.saveLevels pool (B locate).bids.entries ({}, []) = _ at hbids
  change ∀ s, OrderBook.saveLevels pool (B locate).asks.entries s = _ at hasks
  simp only [OrderBook.saveSnapshot, hbids, hasks, Option.bind_eq_bind, Option.bind_some]
  simp only [bookOrders, List.map_append, List.foldl_append, List.nil_append]
  rfl

/-! ### Loading -/

/-- The index keeps the entries of these keys, inserted one after the other. -/
def OrderMap.KeepsAll (index : OrderMap) : List UInt64 → Prop
  | [] => True
  | k :: ks => ¬ index.DropsInsert k ∧
      ∀ v index', index.insert k v = some (true, index') → index'.KeepsAll ks

/-- A table with a free node for every key keeps all of them. -/
theorem OrderMap.Rep.keepsAll {index : OrderMap} {chains : UInt32 → List UInt32}
    {free : List UInt32} (h : index.Rep chains free) (hshort : index.Short chains)
    {keys : List UInt64} (hnd : keys.Nodup) (hnew : ∀ k ∈ keys, index.lookup k = none)
    (hlen : keys.length ≤ free.length) : index.KeepsAll keys := by
  induction keys generalizing index chains free with
  | nil => trivial
  | cons k keys ih =>
      rw [List.nodup_cons] at hnd
      rw [List.length_cons] at hlen
      have hk := hnew k (by simp)
      -- A node is free, so nothing is dropped, and one node at most is used up.
      have hdrop : ¬ index.DropsInsert k := by
        rintro ⟨-, hidx, -⟩
        have hfree := h.freeChain
        rw [hidx] at hfree
        rw [hfree.eq_nil_of_head, List.length_nil] at hlen
        omega
      refine ⟨hdrop, fun v index' hins => ?_⟩
      rcases h.insert hshort hk v with ⟨hd, -⟩ | ⟨-, m', chains', free', hins', hrep', hshort',
        hfree', hlook⟩
      · exact absurd hd hdrop
      · obtain rfl : index' = m' := congrArg Prod.snd (Option.some.inj (hins.symm.trans hins'))
        refine ih hrep' hshort' hnd.2 (fun j hj => ?_) (by omega)
        have hjk : j ≠ k := by
          rintro rfl
          exact hnd.1 hj
        rw [hlook, if_neg hjk]
        exact hnew j (by simp [hj])

/-- A new table keeps as many keys as it has nodes. -/
theorem OrderMap.keepsAll_of_ofCapacity {c : Nat} {index : OrderMap}
    (h : OrderMap.ofCapacity c = some index) {keys : List UInt64} (hnd : keys.Nodup)
    (hlen : keys.length ≤ c) : index.KeepsAll keys := by
  obtain ⟨hrep, hlook⟩ := OrderMap.rep_ofCapacity h
  exact hrep.keepsAll (fun b _ => by simp) hnd (fun k _ => hlook k) (by simpa using hlen)

/-- An order without its slot links. -/
def Order.unlinked (o : Order) : Order :=
  { o with prevIdx := uint32Max, nextIdx := uint32Max, poolNextFree := uint32Max }

/-- What the index of a book gets from `addOrder`. -/
theorem OrderBook.insert_of_addOrder {b b' : OrderBook} {order : Order}
    (h : b.addOrder order = some (true, b')) :
    ∃ idx r, b.index.insert order.orderId idx = some (r, b'.index) := by
  unfold OrderBook.addOrder at h
  split at h
  · simp at h
  · split at h
    · simp at h
    · next idx pool hpool =>
        simp only [Option.bind_eq_bind, Option.bind_eq_some_iff, pure, Option.some.injEq,
          Prod.mk.injEq, true_and] at h
        obtain ⟨r, hr, rfl⟩ := h
        refine ⟨idx, r.1, ?_⟩
        have hindex : ((({ b with pool := pool }.modifyOrder idx fun _ => order).linkTail
            order.side.bookSide order.price idx order.remainingQty).index) = b.index := by
          unfold OrderBook.linkTail
          simp only
          split <;> rfl
        rw [hindex] at hr
        exact hr

namespace Rep

variable {B : UInt64 → BookLevels} {pool : OrderPool} {index : OrderMap}

/-- The index does not know a reference that no resting order has. -/
theorem lookup_of_absent (h : Rep B pool index) {ref : UInt64}
    (habs : (absOf B pool index).Absent ref) : index.lookup ref = none := by
  rw [Option.eq_none_iff_forall_ne_some]
  intro i hi
  obtain ⟨hid, π, hπ⟩ := h.sound ref i hi
  exact habs π _ (List.mem_map.mpr ⟨i, hπ, rfl⟩) hid

/-- The loading loop: every record is appended to the level of its price, and the index finds
it. -/
theorem loadRecords_spec (h : Rep B pool index) (locate : UInt64) (records : List Order)
    (m : Maxima) (hside : ∀ o ∈ records, o.side ≠ .invalid)
    (hids : (records.map fun o => o.orderId).Nodup)
    (hnew : ∀ o ∈ records, (absOf B pool index).Absent o.orderId)
    (hspace : records.length ≤ pool.freeCount)
    (hkeeps : index.KeepsAll (records.map fun o => o.orderId)) :
    ∃ b', OrderBook.loadRecords records (⟨B locate, pool, index⟩, m)
        = some (b', records.foldl Maxima.see m) ∧
      Rep (Function.update B locate b'.toBookLevels) b'.pool b'.index ∧
      (∀ π price, levelData (Function.update B locate b'.toBookLevels) b'.pool.storage π price
        = levelData B pool.storage π price ++ (records.map Order.data).filter fun x =>
            π = (locate, x.1.side.bookSide) ∧ x.1.price = price) ∧
      (∀ o ∈ records, (b'.index.lookup o.orderId).isSome = true) ∧
      ∀ k, (index.lookup k).isSome = true → (b'.index.lookup k).isSome = true := by
  induction records generalizing B pool index m with
  | nil =>
      refine ⟨⟨B locate, pool, index⟩, rfl, ?_, fun π price => ?_, by simp, fun k hk => hk⟩
      · rw [Function.update_eq_self]
        exact h
      · rw [Function.update_eq_self]
        simp
  | cons o records ih =>
      obtain ⟨hdrop, hkeeps⟩ := hkeeps
      rw [List.map_cons, List.nodup_cons] at hids
      rw [List.length_cons] at hspace
      obtain ⟨b₁, idx, l, r, hadd, hrep, habs, hent⟩ := h.addOrder locate
        (show o.unlinked.side ≠ .invalid from hside o (by simp)) (by omega)
        fun π x hx => hnew o (by simp) π x hx
      have hdrop' : decide (index.DropsInsert o.unlinked.orderId) = false :=
        decide_eq_false hdrop
      rw [hdrop'] at habs
      have hindexed : ∀ k, (b₁.index.lookup k).isSome = true ↔
          k = o.orderId ∨ (index.lookup k).isSome = true := by
        intro k
        have hk := congrFun (congrArg Exchange.indexed habs) k
        change (b₁.index.lookup k).isSome
          = Function.update (fun k => (index.lookup k).isSome) o.orderId true k at hk
        rw [hk]
        by_cases hko : k = o.orderId
        · simp [hko]
        · simp [hko]
      -- The rest of the records goes to the book with the order in it.
      have hnew₁ : ∀ x ∈ records, (absOf (Function.update B locate b₁.toBookLevels) b₁.pool
          b₁.index).Absent x.orderId := by
        intro x hx π y hy
        obtain ⟨i, hi, rfl⟩ := List.mem_map.mp hy
        change i ∈ placeSlots (Function.update B locate b₁.toBookLevels) b₁.pool.storage π at hi
        by_cases hidx : i = idx
        · subst hidx
          rw [show b₁.pool.info i = o.toOrderInfo from congrArg Prod.fst hent.new]
          rintro heq
          exact hids.1 (heq ▸ List.mem_map.mpr ⟨x, hx, rfl⟩)
        · rw [show b₁.pool.info i = pool.info i from info_of_data (hent.data i hidx)]
          refine hnew x (by simp [hx]) π _ (List.mem_map.mpr ⟨i, ?_, rfl⟩)
          rw [hent.after] at hi
          by_cases hπ : π = (locate, o.unlinked.side.bookSide)
          · subst hπ
            rw [Function.update_self] at hi
            rw [hent.before]
            simp only [List.mem_append, List.mem_cons] at hi ⊢
            tauto
          · rwa [Function.update_of_ne hπ] at hi
      obtain ⟨v, kept, hins⟩ := OrderBook.insert_of_addOrder hadd
      obtain rfl : kept = true := by
        rcases OrderMap.insert_spec h.wf (h.lookup_of_absent (hnew o (by simp))) v with
          ⟨hd, -⟩ | ⟨-, index', hins', -, -⟩
        · exact absurd hd hdrop
        · exact congrArg Prod.fst (Option.some.inj (hins.symm.trans hins'))
      obtain ⟨b', hload, hrep', hdata, hfound, hkeep⟩ := ih hrep (m.see o)
        (fun x hx => hside x (by simp [hx])) hids.2 hnew₁
        (by rw [hent.free]; omega) (hkeeps v b₁.index hins)
      rw [Function.update_self] at hload
      rw [Function.update_idem] at hrep'
      refine ⟨b', ?_, hrep', fun π price => ?_, fun x hx => ?_, fun k hk => ?_⟩
      · change (OrderBook.addOrder ⟨B locate, pool, index⟩ o.unlinked).bind
          (fun r => OrderBook.loadRecords records (r.2, m.see o)) = _
        rw [hadd]
        exact hload
      · have hd := hdata π price
        rw [Function.update_idem] at hd
        rw [hd, hent.levelData_eq, List.append_assoc]
        congr 1
        rw [List.map_cons, List.filter_cons]
        by_cases hc : π = (locate, o.unlinked.side.bookSide) ∧ o.unlinked.price = price
        · have htest : decide (π = (locate, o.data.1.side.bookSide) ∧ o.data.1.price = price)
              = true := decide_eq_true hc
          rw [if_pos hc, if_pos htest]
          rfl
        · have htest : ¬ decide (π = (locate, o.data.1.side.bookSide) ∧ o.data.1.price = price)
              = true := mt of_decide_eq_true hc
          rw [if_neg hc, if_neg htest, List.nil_append]
      · rcases List.mem_cons.mp hx with rfl | hx
        · exact hkeep _ ((hindexed _).mpr (Or.inl rfl))
        · exact hfound x hx
      · exact hkeep k ((hindexed k).mpr (Or.inr hk))

/-- The resting orders of a book have their sides and distinct references. -/
theorem bookOrders_spec (h : Rep B pool index) (locate : UInt64) :
    (∀ o ∈ bookOrders B pool locate, o.side ≠ .invalid) ∧
      ((bookOrders B pool locate).map fun o => o.orderId).Nodup := by
  constructor
  · intro o ho
    obtain ⟨i, hi, rfl⟩ := List.mem_map.mp ho
    rcases List.mem_append.mp hi with hi | hi
    · exact (h.restsOn hi).1
    · exact (h.restsOn hi).1
  · rw [bookOrders, List.map_map]
    have hplace : ∀ i ∈ placeSlots B pool.storage (locate, .bid)
        ++ placeSlots B pool.storage (locate, .ask), ∃ π, i ∈ placeSlots B pool.storage π :=
      fun i hi => (List.mem_append.mp hi).elim (fun hi => ⟨_, hi⟩) fun hi => ⟨_, hi⟩
    refine List.Nodup.map_on (fun i hi j hj hij => ?_) (List.nodup_append.mpr
      ⟨h.nodup _, h.nodup _, fun i hi j hj hij => ?_⟩)
    · obtain ⟨π, hπ⟩ := hplace i hi
      obtain ⟨π', hπ'⟩ := hplace j hj
      exact h.refs π π' i j hπ hπ' hij
    · subst hij
      have heq := h.place_unique hi hj
      simp at heq

/-- The records of a snapshot, level by level, are the levels of the book. -/
theorem bookOrders_filter (h : Rep B pool index) (locate : UInt64) (d : BookSide)
    (price : UInt32) :
    ((bookOrders B pool locate).map Order.data).filter
        (fun x => d = x.1.side.bookSide ∧ x.1.price = price)
      = levelData B pool.storage (locate, d) price := by
  -- On a side, the side test is always or never met.
  have hpart : ∀ s, ((placeSlots B pool.storage (locate, s)).map fun i =>
        (pool.storage i).data).filter (fun x => d = x.1.side.bookSide ∧ x.1.price = price)
      = if d = s then levelData B pool.storage (locate, s) price else [] := by
    intro s
    have hside : ∀ x ∈ (placeSlots B pool.storage (locate, s)).map fun i =>
        (pool.storage i).data, x.1.side.bookSide = s := by
      intro x hx
      obtain ⟨i, hi, rfl⟩ := List.mem_map.mp hx
      exact h.bookSide_eq hi
    by_cases hd : d = s
    · rw [if_pos hd, levelData]
      refine List.filter_congr fun x hx => ?_
      simp [hside x hx, hd]
    · rw [if_neg hd, List.filter_eq_nil_iff]
      intro x hx
      simp [hside x hx, hd]
  have hsplit : (bookOrders B pool locate).map Order.data
      = ((placeSlots B pool.storage (locate, .bid)).map fun i => (pool.storage i).data)
        ++ (placeSlots B pool.storage (locate, .ask)).map fun i => (pool.storage i).data := by
    rw [bookOrders, List.map_map, List.map_append]
    rfl
  rw [hsplit, List.filter_append, hpart, hpart]
  cases d <;> simp

end Rep

/-! ### The round trip -/

namespace MatchingEngine

/-- What a new engine offers to a snapshot: an empty book, a slot for every order and an index
that keeps them. -/
theorem fits_ofCapacity {e d₀ : MatchingEngine} {c : Nat} {metrics : Option IOCounters}
    {wal : Option WalWriter} {tradePool : Option TradePool}
    (h₀ : ofCapacity c metrics wal tradePool = some d₀) (hinv : e.Inv)
    (hlen : (bookOrders e.levelsOf e.pool 0).length ≤ c) :
    (∀ d, placeSlots d₀.levelsOf d₀.pool.storage (0, d) = []) ∧
      (∀ o ∈ bookOrders e.levelsOf e.pool 0,
        (absOf d₀.levelsOf d₀.pool d₀.index).Absent o.orderId) ∧
      (bookOrders e.levelsOf e.pool 0).length ≤ d₀.pool.freeCount ∧
      d₀.index.KeepsAll ((bookOrders e.levelsOf e.pool 0).map fun o => o.orderId) := by
  have habs : absOf d₀.levelsOf d₀.pool d₀.index = Exchange.empty c := abs_ofCapacity h₀
  refine ⟨fun d => slots_ofCapacity h₀ (0, d), fun o _ π x hx => ?_, ?_, ?_⟩
  · rw [habs] at hx
    exact absurd hx List.not_mem_nil
  · rw [show d₀.pool.freeCount = c from congrArg Exchange.free habs]
    exact hlen
  · obtain ⟨index, hindex, rfl⟩ := exists_of_ofCapacity h₀
    exact OrderMap.keepsAll_of_ofCapacity hindex (Rep.bookOrders_spec hinv 0).2
      (by simpa using hlen)

end MatchingEngine

/-- Saving a book and loading the file into an empty one. The book that is saved is any book of a
well-formed state; so is the empty one, in a state where no order has one of the saved references,
the pool has a slot for every saved order and the index drops none of them. Then both calls come
back, and the loaded book has the same levels with the same counts and totals and the same orders,
arrival numbers included, in the same order; the index finds each of them; and the maxima are
those of the saved orders. -/
theorem loadSnapshot_saveSnapshot {B B₀ : UInt64 → BookLevels} {pool pool₀ : OrderPool}
    {index index₀ : OrderMap} (h : Rep B pool index) (h₀ : Rep B₀ pool₀ index₀)
    (locate locate₀ : UInt64)
    (hempty : ∀ d, placeSlots B₀ pool₀.storage (locate₀, d) = [])
    (hnew : ∀ o ∈ bookOrders B pool locate, (absOf B₀ pool₀ index₀).Absent o.orderId)
    (hspace : (bookOrders B pool locate).length ≤ pool₀.freeCount)
    (hkeeps : index₀.KeepsAll ((bookOrders B pool locate).map fun o => o.orderId)) :
    ∃ maxId file b' out, OrderBook.saveSnapshot ⟨B locate, pool, index⟩ = some (maxId, file) ∧
      OrderBook.loadSnapshot ⟨B₀ locate₀, pool₀, index₀⟩ (some file) {} = some (b', out) ∧
      (∀ d price, bookView b'.toBookLevels b'.pool.storage (fun i => (b'.pool.storage i).data)
          d price
        = bookView (B locate) pool.storage (fun i => (pool.storage i).data) d price) ∧
      (∀ d, ∀ i ∈ entrySlots b'.pool.storage (b'.levels d).entries,
        b'.findOrder (b'.pool.storage i).orderId = some (some i)) ∧
      LargestOf ((bookOrders B pool locate).map fun o => o.sequence) out.maxSeq ∧
      LargestOf ((bookOrders B pool locate).map fun o => o.orderId) out.maxId ∧
      maxId = out.maxId := by
  obtain ⟨hside, hids⟩ := h.bookOrders_spec locate
  obtain ⟨b', hload, hrep', hdata, hfound, -⟩ := h₀.loadRecords_spec locate₀
    (bookOrders B pool locate) {} hside hids hnew hspace hkeeps
  refine ⟨_, _, b', _, h.saveSnapshot_eq locate index, ?_, fun d price => ?_,
    fun d i hi => ?_, ?_, ?_, rfl⟩
  · rw [OrderBook.loadSnapshot, if_neg (by simp)]
    exact hload
  · have hlevel : levelData (Function.update B₀ locate₀ b'.toBookLevels) b'.pool.storage
        (locate₀, d) price = levelData B pool.storage (locate, d) price := by
      rw [hdata, levelData, hempty, ← h.bookOrders_filter]
      simp
    have hview := bookView_data_eq hrep'.toBooksRep h.toBooksRep hlevel
    simp only [Function.update_self] at hview
    exact hview
  · -- The index finds some order of that reference, and there is only one.
    have hi' : i ∈ placeSlots (Function.update B₀ locate₀ b'.toBookLevels) b'.pool.storage
        (locate₀, d) := by
      rw [placeSlots, Function.update_self]
      exact hi
    have hmem : (b'.pool.storage i).data ∈ (bookOrders B pool locate).map Order.data := by
      have hlev : (b'.pool.storage i).data ∈ levelData (Function.update B₀ locate₀
          b'.toBookLevels) b'.pool.storage (locate₀, d) (b'.pool.storage i).price :=
        List.mem_filter.mpr ⟨List.mem_map.mpr ⟨i, hi', rfl⟩, by simp [Order.data]⟩
      rw [hdata, levelData, hempty, List.map_nil, List.filter_nil, List.nil_append] at hlev
      exact (List.mem_filter.mp hlev).1
    obtain ⟨o, ho, hoi⟩ := List.mem_map.mp hmem
    have hid : o.orderId = (b'.pool.storage i).orderId := congrArg (fun x => x.1.orderId) hoi
    obtain ⟨j, hj⟩ := Option.isSome_iff_exists.mp (hfound o ho)
    obtain ⟨hjid, π, hjπ⟩ := hrep'.sound _ j hj
    obtain rfl := hrep'.refs π _ j i hjπ hi' (hjid.trans hid)
    rw [OrderBook.findOrder, OrderMap.find_eq_lookup hrep'.wf, ← hid, hj]
  · rw [Maxima.foldl_see]
    exact largestOf_foldl _ _
  · rw [Maxima.foldl_see]
    exact largestOf_foldl _ _

/-- Two bids at one price, saved by one engine and loaded by a new one. -/
theorem loadSnapshot_saveSnapshot_bids : ∃ e₀ e maxId file b' out,
    MatchingEngine.ofCapacity 4 none none none = some e₀ ∧
    (run MatchingEngine.exec e₀
      [.add 0 1 .buy 100 5 1 .day, .add 0 2 .buy 100 7 2 .day]).map Prod.fst = some e ∧
    (e.book 0).saveSnapshot = some (maxId, file) ∧
    (e₀.book 0).loadSnapshot (some file) {} = some (b', out) ∧
    (∀ d price, bookView b'.toBookLevels b'.pool.storage (fun i => (b'.pool.storage i).data)
        d price
      = bookView (e.levelsOf 0) e.pool.storage (fun i => (e.pool.storage i).data) d price) ∧
    maxId = out.maxId := by
  have hrun : ((MatchingEngine.ofCapacity 4 none none none).bind fun e₀ =>
      (run MatchingEngine.exec e₀
        [.add 0 1 .buy 100 5 1 .day, .add 0 2 .buy 100 7 2 .day]).map fun r =>
        (bookOrders r.1.levelsOf r.1.pool 0).length) = some 2 := by
    decide +kernel
  simp only [Option.bind_eq_some_iff, Option.map_eq_some_iff] at hrun
  obtain ⟨e₀, h₀, ⟨e, outs⟩, hrun, hlen⟩ := hrun
  have hinv := (MatchingEngine.Inv.start h₀).of_trace
    (MatchingEngine.trace_of_adds h₀ (by decide) (by decide) hrun)
  obtain ⟨hempty, hnew, hspace, hkeeps⟩ := MatchingEngine.fits_ofCapacity h₀ hinv (by
    simp only [hlen]
    decide)
  obtain ⟨maxId, file, b', out, hsave, hload, hview, -, -, -, hmax⟩ :=
    loadSnapshot_saveSnapshot hinv (MatchingEngine.Inv.start h₀) 0 0 hempty hnew hspace hkeeps
  exact ⟨e₀, e, maxId, file, b', out, h₀, congrArg (Option.map Prod.fst) hrun, hsave, hload,
    hview, hmax⟩

end NebulaX
