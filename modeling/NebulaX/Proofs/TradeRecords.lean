import NebulaX.Lib.Ring
import NebulaX.Proofs.Rounds

/-!
# `NebulaX.Proofs.TradeRecords`: the records of the trades

Every trade is written to the ring of `trade_pool.h`. `matchLoop_records` is one call of the
matching loop, `exec_records` one call of the engine, and the last section a run from a fresh
ring. The runs are arbitrary: nothing is asked of the references, so the engine's invariant
need not hold.

Each record is the record of its trade, and the ring holds the newest ones in their order. The
numbers are another matter. `matchBuyOrder` and `matchSellOrder` count with a `static` of their
own, so a run in which both trade writes the number 1 twice. `OneWay` is the condition under
which this does not happen.
-/

set_option autoImplicit false

namespace NebulaX

open NebulaX.Lib

/-! ### The ring -/

namespace TradeEntry

/-- The order of a record on a side. -/
def orderId (r : TradeEntry) : BookSide → UInt64
  | .bid => r.buyOrderId
  | .ask => r.sellOrderId

/-- The owner a record names for its order on a side. -/
def owner (r : TradeEntry) : BookSide → UInt64
  | .bid => r.buyerId
  | .ask => r.sellerId

/-- The trade of a record, as the frame of a trade with an order of side `d` reports it. -/
def report (r : TradeEntry) (locate : UInt64) (d : BookSide) : Trade where
  locate := locate
  orderRef := r.orderId d
  side := d.side
  price := r.price
  quantity := r.quantity

end TradeEntry

namespace TradePool

/-- A ring to which nothing was written. -/
def fresh : TradePool := ⟨fun _ => {}, 0⟩

/-- The newest `m` records, the oldest of them first: what lies before `write_idx`. -/
def newest (p : TradePool) (m : Nat) : List TradeEntry :=
  (List.range m).map fun k =>
    p.entries ((p.writeIdx.toNat + (tradeCapacity - m) + k) % tradeCapacity)

/-- The 64-bit index keeps its place in the ring when it wraps. -/
theorem toNat_ofNat_mod (n : Nat) : (UInt64.ofNat n).toNat % tradeCapacity = n % tradeCapacity := by
  rw [UInt64.toNat_ofNat']
  exact Nat.mod_mod_of_dvd n (by decide)

/-- The ring after the records of `log`. `record` leaves the time stamp of the slot, which
nobody ever sets. -/
theorem foldl_record {log : List TradeEntry} (hlog : ∀ r ∈ log, r.timestamp = 0) :
    (log.foldl record fresh).writeIdx = UInt64.ofNat log.length ∧
      (log.foldl record fresh).entries = Ring.write tradeCapacity (fun _ => {}) 0 log ∧
      ∀ i, ((log.foldl record fresh).entries i).timestamp = 0 := by
  induction log using List.reverseRecOn with
  | nil => exact ⟨rfl, rfl, fun _ => rfl⟩
  | append_singleton log r ih =>
      obtain ⟨hidx, hentries, hstamp⟩ := ih fun x hx => hlog x (List.mem_append_left _ hx)
      have hr : r.timestamp = 0 := hlog r (by simp)
      have hsame : { r with timestamp := ((log.foldl record fresh).entries
          (log.length % tradeCapacity)).timestamp } = r := by
        rw [hstamp, ← hr]
      rw [List.foldl_append, List.foldl_cons, List.foldl_nil]
      simp only [record, hidx, toNat_ofNat_mod, hsame]
      refine ⟨?_, ?_, fun i => ?_⟩
      · rw [List.length_append, List.length_singleton, UInt64.ofNat_add]
        rfl
      · rw [Ring.write_snoc, hentries, Nat.zero_add]
      · by_cases hi : i = log.length % tradeCapacity
        · rw [hi, Function.update_self, hr]
        · rw [Function.update_of_ne hi, hstamp]

/-- The newest records, as many as the ring holds, are the end of the log. -/
theorem newest_foldl {log : List TradeEntry} (hlog : ∀ r ∈ log, r.timestamp = 0) :
    (log.foldl record fresh).newest (min log.length tradeCapacity)
      = log.drop (log.length - tradeCapacity) := by
  obtain ⟨hidx, hentries, -⟩ := foldl_record hlog
  refine List.ext_getElem (by simp [newest]; omega) fun k h₁ h₂ => ?_
  rw [List.length_drop] at h₂
  -- Place `k` of the ring's newest is entry `n - cap + k` of the log.
  have hplace : ((UInt64.ofNat log.length).toNat
      + (tradeCapacity - min log.length tradeCapacity) + k) % tradeCapacity
      = (log.length - tradeCapacity + k) % tradeCapacity := by
    rw [Nat.add_assoc, Nat.add_mod, toNat_ofNat_mod, ← Nat.add_mod]
    have hsum : log.length + (tradeCapacity - min log.length tradeCapacity + k)
        = log.length - tradeCapacity + k + tradeCapacity := by omega
    rw [hsum, Nat.add_mod_right]
  simp only [newest, List.getElem_map, List.getElem_range, hidx, hentries, hplace,
    List.getElem_drop]
  exact Ring.write_recent _ _ (by omega) (by omega)

end TradePool

/-! ### Consecutive numbers -/

/-- The `n` numbers that follow `a`, as a 64-bit counter gives them. -/
def idsAfter (a : UInt64) (n : Nat) : List UInt64 :=
  (List.range n).map fun k => a + UInt64.ofNat (k + 1)

theorem idsAfter_add (a : UInt64) (m n : Nat) :
    idsAfter a (m + n) = idsAfter a m ++ idsAfter (a + UInt64.ofNat m) n := by
  simp only [idsAfter, List.range_add, List.map_append, List.map_map]
  congr 1
  refine List.map_congr_left fun k _ => ?_
  simp only [Function.comp, Nat.add_assoc m k 1, UInt64.ofNat_add, UInt64.add_assoc]

theorem idsAfter_succ (a : UInt64) (n : Nat) :
    idsAfter a (n + 1) = (a + 1) :: idsAfter (a + 1) n := by
  rw [Nat.add_comm, idsAfter_add]
  rfl

/-- A counter that starts at 0 counts up until it wraps. -/
theorem pairwise_idsAfter_zero {n : Nat} :
    (idsAfter 0 n).Pairwise (· < ·) ↔ n < 2 ^ 64 := by
  constructor
  · -- The number 2 ^ 64 is written as 0, after the 1.
    intro h
    by_contra hn
    have hlt : (0 : UInt64) + UInt64.ofNat (0 + 1) < 0 + UInt64.ofNat (2 ^ 64 - 1 + 1) := by
      have := List.pairwise_iff_getElem.mp h 0 (2 ^ 64 - 1) (by simp [idsAfter]; omega)
        (by simp [idsAfter]; omega) (by decide)
      simpa only [idsAfter, List.getElem_map, List.getElem_range] using this
    revert hlt
    decide
  · intro hn
    refine List.pairwise_map.mpr (List.pairwise_lt_range.imp_of_mem ?_)
    intro k l hk hl hkl
    rw [List.mem_range] at hk hl
    rw [UInt64.lt_iff_toNat_lt, UInt64.zero_add, UInt64.zero_add, UInt64.toNat_ofNat',
      UInt64.toNat_ofNat', Nat.mod_eq_of_lt (by omega), Nat.mod_eq_of_lt (by omega)]
    omega

/-- Two counters that both start at 0 meet. -/
theorem not_pairwise_idsAfter {m n : Nat} (hm : m ≠ 0) (hn : n ≠ 0) :
    ¬ (idsAfter 0 m ++ idsAfter 0 n).Pairwise (· < ·) := by
  obtain ⟨m, rfl⟩ := Nat.exists_eq_succ_of_ne_zero hm
  obtain ⟨n, rfl⟩ := Nat.exists_eq_succ_of_ne_zero hn
  rw [Nat.succ_eq_add_one, Nat.succ_eq_add_one, idsAfter_succ, idsAfter_succ]
  intro h
  have hlt := (List.pairwise_append.mp h).2.2 _ List.mem_cons_self _ List.mem_cons_self
  exact absurd hlt (UInt64.lt_irrefl _)

/-! ### What an order is known by -/

/-- The fields of an order that neither a trade nor a removal writes. -/
def Order.identity (o : Order) : UInt64 × UInt64 × UInt32 := (o.orderId, o.userId, o.price)

theorem OrderPool.identity_modify (p : OrderPool) (idx : UInt32) {f : Order → Order}
    (hf : ∀ o, (f o).identity = o.identity) (i : UInt32) :
    ((p.modify idx f).storage i).identity = (p.storage i).identity := by
  show (Function.update p.storage idx (f (p.storage idx)) i).identity = _
  by_cases hi : i = idx
  · subst hi
    rw [Function.update_self, hf]
  · rw [Function.update_of_ne hi]

theorem OrderPool.identity_deallocate (p : OrderPool) (idx i : UInt32) :
    ((p.deallocate idx).storage i).identity = (p.storage i).identity :=
  p.identity_modify idx (f := fun o => { o with poolNextFree := p.freeHead.idx }) (fun _ => rfl) i

namespace OrderBook

theorem identity_modifyOrder (b : OrderBook) (idx : UInt32) {f : Order → Order}
    (hf : ∀ o, (f o).identity = o.identity) (i : UInt32) :
    ((b.modifyOrder idx f).pool.storage i).identity = (b.pool.storage i).identity :=
  b.pool.identity_modify idx hf i

/-- A write that may not happen. -/
theorem identity_ite {c : Prop} [Decidable c] (b : OrderBook) (idx : UInt32) {f : Order → Order}
    (hf : ∀ o, (f o).identity = o.identity) (i : UInt32) :
    ((if c then b.modifyOrder idx f else b).pool.storage i).identity
      = (b.pool.storage i).identity := by
  split
  · exact b.identity_modifyOrder idx hf i
  · rfl

theorem identity_unlink (b : OrderBook) (idx i : UInt32) :
    ((b.unlink idx).pool.storage i).identity = (b.pool.storage i).identity := by
  unfold unlink
  refine (identity_ite _ _ ?_ i).trans (identity_ite b _ ?_ i)
  · intro o
    rfl
  · intro o
    rfl

theorem identity_removeOrder {b b' : OrderBook} {idx : UInt32}
    (h : b.removeOrder idx = some b') (i : UInt32) :
    (b'.pool.storage i).identity = (b.pool.storage i).identity := by
  rw [removeOrder, removeFrom] at h
  split at h
  · obtain rfl := Option.some.inj h
    rfl
  · simp only [Option.bind_eq_bind, Option.bind_eq_some_iff, pure, Option.some.injEq] at h
    obtain ⟨index, -, rfl⟩ := h
    refine (OrderPool.identity_deallocate _ idx i).trans ?_
    split
    · exact identity_unlink b idx i
    · exact identity_unlink b idx i

theorem identity_reduceOrderQty (b : OrderBook) (idx amount i : UInt32) :
    ((b.reduceOrderQty idx amount).pool.storage i).identity = (b.pool.storage i).identity :=
  b.identity_modifyOrder idx
    (f := fun o => { o with remainingQty := o.remainingQty - amount
                            filledQty := o.filledQty + amount }) (fun _ => rfl) i

theorem identity_setStatus (b : OrderBook) (idx : UInt32) (s : OrderStatus) (i : UInt32) :
    ((b.modifyOrder idx fun o => { o with status := s }).pool.storage i).identity
      = (b.pool.storage i).identity :=
  b.identity_modifyOrder idx (f := fun o => { o with status := s }) (fun _ => rfl) i

end OrderBook

namespace MatchingEngine

variable {e e' e₁ : MatchingEngine} {c : Call} {out : List BinaryResponse} {order : Order}
variable {best : UInt32} {d : BookSide} {p : TradePool}

theorem identity_settle {b b' : OrderBook} (h : settle b best = some b') (i : UInt32) :
    (b'.pool.storage i).identity = (b.pool.storage i).identity := by
  unfold settle at h
  split at h
  · exact (OrderBook.identity_removeOrder h i).trans (b.identity_setStatus best _ i)
  · obtain rfl := Option.some.inj h
    exact b.identity_setStatus best _ i

/-! ### The matching loop -/

/-- The loop has a first round: the best order of side `d` that is not the taker's own lies
within its limit. -/
def HasRound (d : BookSide) (b : OrderBook) (order : Order) : Prop :=
  order.remainingQty ≠ 0 ∧
    ∃ i, b.getBest d order.userId = some (some i) ∧ ¬ Beyond d order.price (b.pool.storage i).price

/-- Record `r` is about a trade of `order` with the order in slot `i` of side `d`. -/
structure TakenFrom (d : BookSide) (pool : OrderPool) (order : Order) (r : TradeEntry)
    (i : UInt32) : Prop where
  maker : (r.orderId d, r.owner d, r.price) = (pool.storage i).identity
  taker : r.orderId d.opposite = order.orderId
  takerOwner : r.owner d.opposite = order.userId
  timestamp : r.timestamp = 0

/-- The loop went from `st` to `st'` and wrote the records `rs` to the ring `p`. -/
structure Records (d : BookSide) (locate : UInt64) (p : TradePool) (st st' : MatchState)
    (rs : List TradeEntry) : Prop where
  out : st'.out = st.out ++ rs.map fun r => .trade (r.report locate d)
  pool : st'.tradePool = some (rs.foldl TradePool.record p)
  counter : st'.tradeId = st.tradeId + UInt64.ofNat rs.length
  ids : rs.map (·.tradeId) = idsAfter st.tradeId rs.length
  taken : ∀ r ∈ rs, ∃ i, TakenFrom d st.book.pool st.order r i ∧
    ∀ B, Rep B st.book.pool st.book.index → B locate = st.book.toBookLevels →
      i ∈ placeSlots B st.book.pool.storage (locate, d)

/-- The record of one round. -/
theorem fill_records {locate seq : UInt64} {st st' : MatchState}
    (h : fill d locate seq best st = some st') (hp : st.tradePool = some p) :
    ∃ r, TakenFrom d st.book.pool st.order r best ∧ r.tradeId = st.tradeId + 1 ∧
      st'.out = st.out ++ [.trade (r.report locate d)] ∧
      st'.tradePool = some (p.record r) ∧ st'.tradeId = st.tradeId + 1 ∧
      (st'.order.orderId = st.order.orderId ∧ st'.order.userId = st.order.userId) ∧
      ∀ i, (st'.book.pool.storage i).identity = (st.book.pool.storage i).identity := by
  simp only [fill, Option.bind_eq_bind, Option.bind_eq_some_iff, pure, Option.some.injEq] at h
  obtain ⟨b, hset, rfl⟩ := h
  have hid := fun i => st.book.identity_reduceOrderQty best
    (min st.order.remainingQty (st.book.pool.storage best).remainingQty) i
  refine ⟨tradeEntry d ?order ?maker ?quantity (st.tradeId + 1) seq, ⟨?_, ?_, ?_, ?_⟩, ?_, ?_,
    ?pool, ?_, ⟨rfl, rfl⟩, fun i => (identity_settle hset i).trans (hid i)⟩
  case pool =>
    show st.tradePool.map _ = _
    rw [hp]
    rfl
  · rw [← hid best]
    cases d <;> rfl
  · cases d <;> rfl
  · cases d <;> rfl
  · cases d <;> rfl
  · cases d <;> rfl
  · cases d <;> rfl
  · simp [hp]

theorem TakenFrom.of_identity {pool pool' : OrderPool} {order' : Order} {r : TradeEntry}
    {i : UInt32} (h : TakenFrom d pool order r i)
    (hpool : (pool.storage i).identity = (pool'.storage i).identity)
    (href : order.orderId = order'.orderId) (huser : order.userId = order'.userId) :
    TakenFrom d pool' order' r i :=
  ⟨h.maker.trans hpool, h.taker.trans href, h.takerOwner.trans huser, h.timestamp⟩

section
variable {locate seq : UInt64} {st st' : MatchState}

theorem Records.nil (hp : st.tradePool = some p) : Records d locate p st st [] where
  out := by simp
  pool := hp
  counter := by simp
  ids := rfl
  taken := by simp

/-- What the loop trades with rests on side `d`. -/
theorem mem_of_getBest {B : UInt64 → BookLevels}
    (hbest : st.book.getBest d st.order.userId = some (some best))
    (hrep : Rep B st.book.pool st.book.index) (hB : B locate = st.book.toBookLevels) :
    best ∈ placeSlots B st.book.pool.storage (locate, d) := by
  have hscan := hrep.toBooksRep.getBest_eq locate d st.order.userId st.book.index
  rw [hB] at hscan
  exact List.mem_of_find?_eq_some (Option.some.inj (hscan.symm.trans hbest))

/-- One round and the loop after it. -/
theorem Records.cons {st₁ : MatchState} {rs : List TradeEntry}
    (hbest : st.book.getBest d st.order.userId = some (some best))
    (hfill : fill d locate seq best st = some st₁) (hp : st.tradePool = some p)
    (h : ∀ p₁, st₁.tradePool = some p₁ → Records d locate p₁ st₁ st' rs) :
    ∃ r, Records d locate p st st' (r :: rs) := by
  obtain ⟨r, htaken, hid, hout, hpool, hcounter, ⟨href, huser⟩, hidentity⟩ :=
    fill_records hfill hp
  obtain ⟨hout', hpool', hcounter', hids', htaken'⟩ := h _ hpool
  refine ⟨r, ?_, hpool', ?_, ?_, ?_⟩
  · rw [hout', hout, List.append_assoc]
    rfl
  · rw [hcounter', hcounter, List.length_cons, Nat.add_comm, UInt64.ofNat_add, UInt64.add_assoc]
    rfl
  · rw [List.map_cons, List.length_cons, idsAfter_succ, hids', hcounter, hid]
  · intro x hx
    rcases List.mem_cons.mp hx with rfl | hx
    · exact ⟨best, htaken, fun B hrep hB => mem_of_getBest hbest hrep hB⟩
    · obtain ⟨i, hi, hmem⟩ := htaken' x hx
      refine ⟨i, hi.of_identity (hidentity i) href huser, fun B hrep hB => ?_⟩
      -- Later rounds trade with orders that rested before this one.
      obtain ⟨st₂, hfill₂, hrep₂, -, hshrinks, -⟩ := fill_spec seq hrep
        (show st.book = ⟨B locate, st.book.pool, st.book.index⟩ by rw [hB])
        (mem_of_getBest hbest hrep hB)
      obtain rfl : st₂ = st₁ := Option.some.inj (hfill₂.symm.trans hfill)
      exact (hshrinks.sublist _).subset (hmem _ hrep₂ (Function.update_self _ _ _))

/-- The records of the loop. It writes any exactly if it has a first round. -/
theorem matchLoop_records {fuel : Nat} (h : matchLoop d locate seq fuel st = some st')
    (hp : st.tradePool = some p) :
    ∃ rs, Records d locate p st st' rs ∧ (rs ≠ [] ↔ HasRound d st.book st.order) := by
  -- A loop that stops at once writes nothing.
  have hstop : ∀ st₁ p₁, ¬ HasRound d st₁.book st₁.order → st₁.tradePool = some p₁ →
      ∃ rs, Records d locate p₁ st₁ st₁ rs ∧ (rs ≠ [] ↔ HasRound d st₁.book st₁.order) :=
    fun st₁ p₁ hno hp₁ => ⟨[], .nil hp₁, by simp [hno]⟩
  induction fuel generalizing st p with
  | zero => simp [matchLoop] at h
  | succ fuel ih =>
      rw [matchLoop] at h
      split at h
      · rename_i hzero
        obtain rfl := Option.some.inj h
        exact hstop st p (fun hm => hm.1 hzero) hp
      · rename_i hqty
        simp only [Option.bind_eq_bind, Option.bind_eq_some_iff] at h
        obtain ⟨found, hbest, h⟩ := h
        cases found with
        | none =>
            obtain rfl := Option.some.inj h
            refine hstop st p ?_ hp
            rintro ⟨-, i, hi, -⟩
            cases hi.symm.trans hbest
        | some best =>
            simp only at h
            split at h
            · rename_i hbeyond
              obtain rfl := Option.some.inj h
              refine hstop st p ?_ hp
              rintro ⟨-, i, hi, hwithin⟩
              obtain rfl : i = best := by simpa using hi.symm.trans hbest
              exact hwithin hbeyond
            · rename_i hwithin
              simp only [Option.bind_eq_some_iff] at h
              obtain ⟨st₁, hfill, h⟩ := h
              obtain ⟨p₁, hp₁⟩ : ∃ p₁, st₁.tradePool = some p₁ := by
                obtain ⟨r, -, -, -, hpool, -⟩ := fill_records hfill hp
                exact ⟨_, hpool⟩
              obtain ⟨rs, hrs, -⟩ := ih h hp₁
              obtain ⟨r, hr⟩ := Records.cons hbest hfill hp fun p₂ hp₂ => by
                obtain rfl : p₁ = p₂ := Option.some.inj (hp₁.symm.trans hp₂)
                exact hrs
              exact ⟨r :: rs, hr, by simp [HasRound, hqty, hbest, hwithin]⟩

end

/-! ### A call -/

/-- The call trades with side `d`: its order gets to the loop and the loop has a first round. -/
def Takes (e : MatchingEngine) (c : Call) (d : BookSide) : Prop :=
  ∃ b order, e.meeting? c = some (b, order) ∧ d = order.side.bookSide.opposite ∧ HasRound d b order

/-- The records of a match. -/
theorem matchSide_records {locate : UInt64} {left : Order}
    (h : e.matchSide locate order = some (e', left, out)) (hp : e.tradePool = some p) :
    ∃ rs : List TradeEntry, ∃ d, d = order.side.bookSide.opposite ∧
      (rs ≠ [] ↔ HasRound d (e.book locate) order) ∧
      reportedTrades out = rs.map (·.report locate d) ∧
      e'.tradePool = some (rs.foldl TradePool.record p) ∧
      e'.tradeId d = e.tradeId d + UInt64.ofNat rs.length ∧
      e'.tradeId d.opposite = e.tradeId d.opposite ∧
      rs.map (·.tradeId) = idsAfter (e.tradeId d) rs.length ∧
      ∀ r ∈ rs, ∃ i, TakenFrom d e.pool order r i ∧ (e.Inv → i ∈ e.slots (locate, d)) := by
  obtain ⟨d, st, hd, hloop, heq⟩ := matchSide_inv h
  cases heq
  obtain ⟨rs, hrs, hmeets⟩ := matchLoop_records hloop hp
  refine ⟨rs, d, hd, hmeets, ?_, hrs.pool, ?_, ?_, hrs.ids, ?_⟩
  · rw [hrs.out, List.nil_append, reportedTrades, List.filterMap_map]
    exact congrFun (List.filterMap_eq_map (f := fun r => r.report locate d)) rs
  · rw [← hrs.counter]
    cases d <;> rfl
  · cases d <;> rfl
  · intro r hr
    obtain ⟨i, hi, hmem⟩ := hrs.taken r hr
    exact ⟨i, hi, fun hinv => hmem e.levelsOf hinv rfl⟩

/-! ### A call and its records -/

/-- A trade as a run reports it: with its call, the engine before the call, and its place among
the trades of the call. -/
structure Report where
  call : Call
  before : MatchingEngine
  trade : Trade
  place : Nat

/-- A call, with the engine before it kept beside the answers. -/
def execSeen (e : MatchingEngine) (c : Call) :
    Option (MatchingEngine × MatchingEngine × List BinaryResponse) :=
  (e.exec c).map fun r => (r.1, e, r.2)

/-- The trades of a call. -/
def reportsOf (x : Call × MatchingEngine × List BinaryResponse) : List Report :=
  (reportedTrades x.2.2).zipIdx.map fun t => ⟨x.1, x.2.1, t.1, t.2⟩

/-- The trades of a run. -/
def reports (h : List (Call × MatchingEngine × List BinaryResponse)) : List Report :=
  h.flatMap reportsOf

/-- `r` is the record of a reported trade. Its maker stood in the pool before the call, and
where the books are in order it rested in the call's book on the side the frame names. -/
structure RecordOf (x : Report) (r : TradeEntry) : Prop where
  price : r.price = x.trade.price
  quantity : r.quantity = x.trade.quantity
  maker : r.orderId x.trade.side.bookSide = x.trade.orderRef
  makerOwner : ∃ i, (x.before.pool.storage i).orderId = x.trade.orderRef ∧
    (x.before.pool.storage i).price = x.trade.price ∧
    (x.before.pool.storage i).userId = r.owner x.trade.side.bookSide ∧
    (x.before.Inv → x.before.abs.Routed x.call →
      i ∈ x.before.slots (x.call.locate, x.trade.side.bookSide))
  taker : x.call.newRef? = some (r.orderId x.trade.side.bookSide.opposite)
  takerOwner : x.call.taker? = some (r.owner x.trade.side.bookSide.opposite)
  number : r.tradeId
    = x.before.tradeId x.trade.side.bookSide + UInt64.ofNat (x.place + 1)

/-- A call wrote the records `rs`, of trades with side `d`. -/
structure Wrote (e : MatchingEngine) (c : Call) (e' : MatchingEngine)
    (out : List BinaryResponse) (p : TradePool) (rs : List TradeEntry) (d : BookSide) :
    Prop where
  pool : e'.tradePool = some (rs.foldl TradePool.record p)
  records : List.Forall₂ RecordOf (reportsOf (c, e, out)) rs
  timestamp : ∀ r ∈ rs, r.timestamp = 0
  counter : e'.tradeId d = e.tradeId d + UInt64.ofNat rs.length
  other : e'.tradeId d.opposite = e.tradeId d.opposite
  ids : rs.map (·.tradeId) = idsAfter (e.tradeId d) rs.length
  takes : rs ≠ [] ↔ e.Takes c d
  notOther : ¬ e.Takes c d.opposite

theorem tradeId_of_tape (h : e'.tape = e.tape) (d : BookSide) :
    e'.tradeId d = e.tradeId d := by
  simp only [tape, Prod.mk.injEq] at h
  cases d
  · exact h.2.2
  · exact h.2.1

/-- The orders the loop finds are those that rested before the call. -/
theorem Brings.identity (hb : Brings e c e₁ order) (i : UInt32) :
    (e₁.pool.storage i).identity = (e.pool.storage i).identity := by
  have hmeeting := hb.meeting
  show ((e₁.book c.locate).pool.storage i).identity = _
  cases c with
  | add =>
      rw [meeting?] at hmeeting
      split at hmeeting
      · rw [← (Prod.mk.inj (Option.some.inj hmeeting)).1]
        rfl
      · cases hmeeting
  | replace =>
      simp only [meeting?, Option.bind_eq_bind, Option.bind_eq_some_iff] at hmeeting
      obtain ⟨idx, -, b, hrem, heq⟩ := hmeeting
      rw [← (Prod.mk.inj (Option.some.inj heq)).1]
      exact OrderBook.identity_removeOrder hrem i
  | _ => cases hmeeting

/-- The record of a trade that the loop took from a slot. -/
theorem Brings.recordOf {r : TradeEntry} {i : UInt32} {k : Nat} (hb : Brings e c e₁ order)
    (ht : TakenFrom d e₁.pool order r i) (hmem : e₁.Inv → i ∈ e₁.slots (c.locate, d))
    (hid : r.tradeId = e.tradeId d + UInt64.ofNat (k + 1)) :
    RecordOf ⟨c, e, r.report c.locate d, k⟩ r := by
  have hside : d.side.bookSide = d := by cases d <;> rfl
  have hmaker := ht.maker.trans (hb.identity i)
  simp only [Order.identity, Prod.mk.injEq] at hmaker
  obtain ⟨hmref, hmuser, hmprice⟩ := hmaker
  constructor
  case price => rfl
  case quantity => rfl
  case maker => simp only [TradeEntry.report, hside]
  case makerOwner =>
    simp only [TradeEntry.report, hside]
    refine ⟨i, hmref.symm, hmprice.symm, hmuser.symm, fun hinv hrouted => ?_⟩
    obtain ⟨hinv₁, hsub⟩ := hb.slots hinv hrouted
    exact hsub _ i (hmem hinv₁)
  case taker => simp only [TradeEntry.report, hside, ht.taker, hb.ref]
  case takerOwner => simp only [TradeEntry.report, hside, ht.takerOwner, hb.owner]
  case number => simp only [TradeEntry.report, hside, hid]

/-- The records of a call. -/
theorem exec_records (h : e.exec c = some (e', out)) (hp : e.tradePool = some p) :
    ∃ rs d, Wrote e c e' out p rs d := by
  rcases exec_cases h with ⟨hnone, htape, htrades⟩ | ⟨e₁, order, e₂, left, out₁, hb, hm, htape,
    htrades⟩
  · have hno : ∀ d, ¬ e.Takes c d := by
      rintro d ⟨b, order, hmeeting, -⟩
      rw [hnone] at hmeeting
      cases hmeeting
    refine ⟨[], .bid, ?_, ?_, by simp, ?_, tradeId_of_tape htape _, rfl, by simp [hno], hno _⟩
    · exact (congrArg Prod.fst htape).trans hp
    · rw [reportsOf, htrades]
      exact .nil
    · simp [tradeId_of_tape htape]
  · have hp₁ : e₁.tradePool = some p := (congrArg Prod.fst hb.tape).trans hp
    obtain ⟨rs, d, hd, hround, hout, hpool, hcounter, hother, hids, htaken⟩ :=
      matchSide_records hm hp₁
    rw [tradeId_of_tape hb.tape] at hcounter hother hids
    rw [← tradeId_of_tape htape] at hcounter hother
    refine ⟨rs, d, (congrArg Prod.fst htape).trans hpool, ?_, ?_, hcounter, hother, hids, ?_, ?_⟩
    · rw [reportsOf, htrades, hout]
      refine List.forall₂_iff_get.mpr ⟨by simp, fun k h₁ h₂ => ?_⟩
      obtain ⟨i, hi, hmem⟩ := htaken (rs.get ⟨k, h₂⟩) (List.get_mem _ _)
      have hnumber : (rs.get ⟨k, h₂⟩).tradeId = e.tradeId d + UInt64.ofNat (k + 1) := by
        have hk := congrArg (·[k]?) hids
        simpa [idsAfter, List.getElem?_map, h₂] using hk
      have hrecord := hb.recordOf hi hmem hnumber
      simpa using hrecord
    · intro r hr
      obtain ⟨i, hi, -⟩ := htaken r hr
      exact hi.timestamp
    · constructor
      · intro hne
        exact ⟨_, order, hb.meeting, hd, hround.mp hne⟩
      · rintro ⟨b, order', hmeeting, -, hr⟩
        rw [hb.meeting, Option.some.injEq, Prod.mk.injEq] at hmeeting
        obtain ⟨rfl, rfl⟩ := hmeeting
        exact hround.mpr hr
    · rintro ⟨b, order', hmeeting, hd', -⟩
      rw [hb.meeting, Option.some.injEq, Prod.mk.injEq] at hmeeting
      obtain ⟨-, rfl⟩ := hmeeting
      rw [← hd] at hd'
      revert hd'
      cases d <;> simp [BookSide.opposite]

/-! ### Runs -/

/-- A call that trades with one side finds the counter of the other matching function at 0. -/
def OneWay (e : MatchingEngine) (c : Call) : Prop :=
  ∀ d, e.Takes c d → e.tradeId d.opposite = 0

/-- Where the numbers stand after a run: one counter has counted all records, or both have
counted. -/
inductive Tallied (h : List (Call × MatchingEngine × List BinaryResponse)) (e : MatchingEngine)
    (log : List TradeEntry) : Prop
  | one (d : BookSide) (hway : ∀ x ∈ h, OneWay x.2.1 x.1)
      (hcounter : e.tradeId d = UInt64.ofNat log.length) (hother : e.tradeId d.opposite = 0)
      (hids : log.map (·.tradeId) = idsAfter 0 log.length)
  | both (hway : ∃ x ∈ h, ¬ OneWay x.2.1 x.1)
      (hids : ¬ (log.map (·.tradeId)).Pairwise (· < ·))

/-- The numbers after one more call. -/
theorem Tallied.step {h : List (Call × MatchingEngine × List BinaryResponse)}
    {log rs : List TradeEntry} (hn : Tallied h e log) (hw : Wrote e c e' out p rs d) :
    Tallied (h ++ [(c, e, out)]) e' (log ++ rs) := by
  have hmem : ∀ x, x ∈ h ++ [(c, e, out)] ↔ x ∈ h ∨ x = (c, e, out) := by simp
  cases hn with
  | both hway hids =>
      obtain ⟨x, hx, hno⟩ := hway
      refine .both ⟨x, (hmem x).mpr (Or.inl hx), hno⟩ fun hall => hids ?_
      rw [List.map_append] at hall
      exact (List.pairwise_append.mp hall).1
  | one d₀ hway hcounter hother hids =>
      -- The run stays one-way if this call is, and the numbers go on from `log.length`.
      have hgo : OneWay e c → e.tradeId d = UInt64.ofNat log.length →
          e.tradeId d.opposite = 0 → Tallied (h ++ [(c, e, out)]) e' (log ++ rs) := by
        intro hc hd hopp
        refine .one d ?_ ?_ (hw.other.trans hopp) ?_
        · intro x hx
          rcases (hmem x).mp hx with hx | rfl
          · exact hway x hx
          · exact hc
        · rw [hw.counter, hd, List.length_append, UInt64.ofNat_add]
        · rw [List.map_append, hids, hw.ids, hd, List.length_append, idsAfter_add,
            UInt64.zero_add]
      have hside : ∀ d', e.Takes c d' → d' = d := by
        intro d' ht
        by_contra hne
        refine hw.notOther ?_
        have hopp : d' = d.opposite := by
          revert hne
          cases d <;> cases d' <;> simp [BookSide.opposite]
        rwa [← hopp]
      by_cases hrs : rs = []
      · -- No trade: nothing is written and the counters stay.
        have hno : ¬ e.Takes c d := fun ht => hw.takes.mpr ht hrs
        have hsame : ∀ d', e'.tradeId d' = e.tradeId d' := by
          intro d'
          have hd : e'.tradeId d = e.tradeId d := by simp [hw.counter, hrs]
          have hopp := hw.other
          revert hd hopp
          cases d <;> cases d' <;> simp [BookSide.opposite] <;> tauto
        subst hrs
        rw [List.append_nil]
        refine .one d₀ ?_ ((hsame _).trans hcounter) ((hsame _).trans hother) hids
        intro x hx
        rcases (hmem x).mp hx with hx | rfl
        · exact hway x hx
        · intro d' ht
          exact absurd (hside d' ht ▸ ht) hno
      · by_cases hd : d = d₀
        · subst hd
          refine hgo (fun d' ht => ?_) hcounter hother
          rw [hside d' ht]
          exact hother
        · -- The other function's first trade, unless its counter has come round to 0.
          have hopp : d.opposite = d₀ ∧ d₀.opposite = d := by
            revert hd
            cases d <;> cases d₀ <;> simp [BookSide.opposite]
          rw [hopp.2] at hother
          by_cases hzero : UInt64.ofNat log.length = 0
          · refine hgo (fun d' ht => ?_) (hother.trans hzero.symm) ?_
            · rw [hside d' ht, hopp.1, hcounter, hzero]
            · rw [hopp.1, hcounter, hzero]
          · refine .both ⟨_, (hmem _).mpr (Or.inr rfl), fun hc => ?_⟩ ?_
            · have := hc d (hw.takes.mp hrs)
              rw [hopp.1, hcounter] at this
              exact hzero this
            · rw [List.map_append, hids, hw.ids, hother]
              refine not_pairwise_idsAfter ?_ (by simpa using hrs)
              rintro hlen
              exact hzero (by rw [hlen]; rfl)

/-- After every run from a fresh ring, the ring holds the newest records in their order, and
every trade of the run has its record. The numbers are in order exactly if the trades of the
run, fewer than 2 ^ 64, were all made by the same matching function. -/
theorem trade_records {cap : Nat} {metrics : Option IOCounters} {wal : Option WalWriter}
    {e₀ e : MatchingEngine} (h₀ : ofCapacity cap metrics wal (some .fresh) = some e₀)
    {h : List (Call × MatchingEngine × List BinaryResponse)}
    (t : Trace execSeen (fun _ _ _ => True) e₀ h e) :
    ∃ log : List TradeEntry,
      e.tradePool = some (log.foldl TradePool.record .fresh) ∧
      (log.foldl TradePool.record .fresh).newest (min log.length tradeCapacity)
        = log.drop (log.length - tradeCapacity) ∧
      List.Forall₂ RecordOf (reports h) log ∧
      ((log.map (·.tradeId)).Pairwise (· < ·) ↔
        (∀ x ∈ h, OneWay x.2.1 x.1) ∧ log.length < 2 ^ 64) := by
  have hinv : ∃ log : List TradeEntry,
      e.tradePool = some (log.foldl TradePool.record .fresh) ∧ (∀ r ∈ log, r.timestamp = 0) ∧
      List.Forall₂ RecordOf (reports h) log ∧ Tallied h e log := by
    refine t.invariant (I := fun h e => ∃ log : List TradeEntry,
      e.tradePool = some (log.foldl TradePool.record .fresh) ∧ (∀ r ∈ log, r.timestamp = 0) ∧
      List.Forall₂ RecordOf (reports h) log ∧ Tallied h e log) ?_ ?_
    · obtain ⟨index, -, rfl⟩ := exists_of_ofCapacity h₀
      exact ⟨[], rfl, by simp, .nil, .one .bid (by simp) rfl rfl rfl⟩
    · rintro h e c e' ⟨e₁, out⟩ - ⟨log, hpool, hstamp, hrec, hnum⟩ - hstep
      simp only [execSeen, Option.map_eq_some_iff, Prod.mk.injEq] at hstep
      obtain ⟨⟨e₂, out₂⟩, hexec, rfl, rfl, rfl⟩ := hstep
      obtain ⟨rs, d, hw⟩ := exec_records hexec hpool
      refine ⟨log ++ rs, ?_, ?_, ?_, hnum.step hw⟩
      · rw [hw.pool, List.foldl_append]
      · intro r hr
        rcases List.mem_append.mp hr with hr | hr
        · exact hstamp r hr
        · exact hw.timestamp r hr
      · rw [reports, List.flatMap_append, List.flatMap_singleton]
        exact List.rel_append hrec hw.records
  obtain ⟨log, hpool, hstamp, hrec, hnum⟩ := hinv
  refine ⟨log, hpool, TradePool.newest_foldl hstamp, hrec, ?_⟩
  cases hnum with
  | one d hway _ _ hids =>
      rw [hids, pairwise_idsAfter_zero]
      exact ⟨fun hlen => ⟨hway, hlen⟩, fun hc => hc.2⟩
  | both hway hids =>
      obtain ⟨x, hx, hno⟩ := hway
      exact ⟨fun hp => absurd hp hids, fun hc => absurd (hc.1 x hx) hno⟩

/-- A buy that meets a resting sell. -/
theorem trade_records_buy :
    ∃ e₀ e os, ofCapacity 4 none none (some .fresh) = some e₀ ∧
      run execSeen e₀ [.add 0 7 .sell 100 5 1 .day, .add 0 8 .buy 100 5 2 .day] = some (e, os) ∧
      (reports ([.add 0 7 .sell 100 5 1 .day, .add 0 8 .buy 100 5 2 .day].zip os)).map (·.trade)
        = [⟨0, 7, .sell, 100, 5⟩] ∧
      ∃ log : List TradeEntry,
        e.tradePool = some (log.foldl TradePool.record .fresh) ∧
        (log.foldl TradePool.record .fresh).newest (min log.length tradeCapacity)
          = log.drop (log.length - tradeCapacity) ∧
        List.Forall₂ RecordOf
          (reports ([.add 0 7 .sell 100 5 1 .day, .add 0 8 .buy 100 5 2 .day].zip os)) log ∧
        ((log.map (·.tradeId)).Pairwise (· < ·) ↔
          (∀ x ∈ [Call.add 0 7 .sell 100 5 1 .day, .add 0 8 .buy 100 5 2 .day].zip os,
            OneWay x.2.1 x.1) ∧ log.length < 2 ^ 64) := by
  have hrun : ((ofCapacity 4 none none (some .fresh)).bind fun e₀ =>
      (run execSeen e₀ [.add 0 7 .sell 100 5 1 .day, .add 0 8 .buy 100 5 2 .day]).map fun r =>
        (reports ([.add 0 7 .sell 100 5 1 .day, .add 0 8 .buy 100 5 2 .day].zip r.2)).map
          (·.trade)) = some [⟨0, 7, .sell, 100, 5⟩] := by
    decide +kernel
  simp only [Option.bind_eq_some_iff, Option.map_eq_some_iff] at hrun
  obtain ⟨e₀, h₀, ⟨e, os⟩, hr, htrades⟩ := hrun
  have t := (Trace.of_run (Q := fun _ => True) (fun _ _ => trivial) hr).2
  exact ⟨e₀, e, os, h₀, hr, htrades, trade_records h₀ t⟩

/-- A trade a buy makes and a trade a sell makes: both records have the number 1. -/
theorem trade_ids_repeat :
    ((ofCapacity 4 none none (some .fresh)).bind fun e₀ =>
      (run exec e₀ [.add 0 7 .sell 100 5 1 .day, .add 0 8 .buy 100 5 2 .day,
        .add 0 9 .buy 100 5 1 .day, .add 0 10 .sell 100 5 2 .day]).bind fun r =>
        r.1.tradePool.map fun p => (p.writeIdx, (p.newest 2).map (·.tradeId)))
      = some (2, [1, 1]) := by
  decide +kernel

end MatchingEngine

end NebulaX
