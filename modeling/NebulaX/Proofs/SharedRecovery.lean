import NebulaX.Engine.Recovery
import NebulaX.Lib.Pack
import NebulaX.Proofs.Refill

/-!
# `NebulaX.Proofs.SharedRecovery`: what `recoverFromShared` makes of an array

The scan takes every slot that is `Live` and gives it to `addOrder`, which writes it to the first
free slot. That is `Lib.packed`: the orders move to the front of the array in the order of their
slots, and behind them the array keeps what it held.

* `Packs.recoverSlot` is one round. Only the index can keep it from coming back, so the round is
  stated with what `insert` returns.
* `Packs.of_recoverSlots` is the whole scan, if it comes back, and `Packs.exists_recoverSlots`
  says that it does if no two live slots share an id.
* `Packs.orders` reads the recovered book off the array: at every price the live orders of that
  side and price, in the order of their slots.
-/

set_option autoImplicit false

namespace NebulaX

open NebulaX.Lib

/-- The slot looks like a resting order to `recoverFromShared`, and `addOrder` takes it. -/
def Live (x : OrderInfo × UInt64) : Prop :=
  x.1.orderId ≠ 0 ∧ x.1.status ≠ .filled ∧ x.1.status ≠ .cancelled ∧ x.1.side ≠ .invalid

instance : DecidablePred Live := fun _ => inferInstanceAs (Decidable (_ ∧ _ ∧ _ ∧ _))

/-- The side byte 7 names no side, and an order with it is live. -/
def byte7 : Side := .other ⟨4, by decide⟩

/-- The slots of an array, without their links. -/
def cells (storage : UInt32 → Order) (i : Nat) : OrderInfo × UInt64 :=
  (storage (UInt32.ofNat i)).data

/-- `rebuildFreelist` writes the free links only. -/
theorem OrderPool.data_rebuildFreelist (pool : OrderPool) (i : UInt32) :
    (pool.rebuildFreelist.storage i).data = (pool.storage i).data := by
  unfold OrderPool.rebuildFreelist OrderPool.chainFree
  simp only
  split <;> rfl

namespace PoolRep

/-- `rebuildFreelist` makes every slot free, in the order of the array. -/
theorem rebuildFreelist {κ : Type} {pool : OrderPool} (h2 : 2 ≤ pool.capacity)
    (hc : pool.capacity ≤ 2 ^ 31) :
    PoolRep pool.rebuildFreelist (fun _ : κ => [])
      ((List.range' 0 pool.capacity).map UInt32.ofNat) := by
  refine (PoolRep.ofCapacity h2 hc).congr rfl rfl rfl fun i hi => ?_
  have hlt : i.toNat < pool.capacity := (PoolRep.ofCapacity (κ := κ) h2 hc).freeLt i hi
  simp [OrderPool.rebuildFreelist, OrderPool.chainFree, OrderPool.ofCapacity, hlt]

end PoolRep

namespace MatchingEngine

/-- The engine after the first `n` of the `c` slots of an array with the contents `st`. -/
structure Packs (st : Nat → OrderInfo × UInt64) (c n : Nat) (e : MatchingEngine) : Prop where
  capacity : e.pool.capacity = c
  levels : ∀ π : Place, EntriesRep e.pool.storage π.2 ((e.levelsOf π.1).levels π.2).entries
  free : PoolRep e.pool (placeSlots e.levelsOf e.pool.storage)
    ((List.range' (kept Live st n).length (c - (kept Live st n).length)).map UInt32.ofNat)
  cells : ∀ i < c, cells e.pool.storage i = packed Live st n i
  orders : ∀ π price, levelData e.levelsOf e.pool.storage π price
    = (kept Live st n).filter fun x => π.1 = 0 ∧ x.1.side.bookSide = π.2 ∧ x.1.price = price

namespace Packs

variable {st : Nat → OrderInfo × UInt64} {c n k : Nat} {e e' : MatchingEngine}

theorem booksRep (h : Packs st c n e) : BooksRep e.levelsOf e.pool := ⟨h.levels, _, h.free⟩

theorem le_pow (h : Packs st c n e) : c ≤ 2 ^ 31 := h.capacity ▸ h.free.capacity

/-- The invariant reads the books and the pool only. -/
theorem congr (h : Packs st c n e) (hlev : e'.levelsOf = e.levelsOf) (hpool : e'.pool = e.pool) :
    Packs st c n e' := by
  constructor
  case capacity => rw [hpool]; exact h.capacity
  case levels => rw [hlev, hpool]; exact h.levels
  case free => rw [hlev, hpool]; exact h.free
  case cells => rw [hpool]; exact h.cells
  case orders => rw [hlev, hpool]; exact h.orders

/-- A slot that is not live is passed over. -/
theorem succ_of_not_live (h : Packs st c n e) (hlive : ¬ Live (st n)) : Packs st c (n + 1) e := by
  have hkept : kept Live st (n + 1) = kept Live st n := by
    rw [kept_succ, if_neg hlive, List.append_nil]
  constructor
  case capacity => exact h.capacity
  case levels => exact h.levels
  case free => rw [hkept]; exact h.free
  case cells => rw [packed_succ, if_neg hlive]; exact h.cells
  case orders => rw [hkept]; exact h.orders

/-- A live slot goes to the first free slot and to the end of its level in book 0. -/
theorem succ_of_entry (h : Packs st c n e) (hn : n < c) (hlive : Live (st n)) {order : Order}
    (hdata : order.data = st n) {lv : BookLevels} {pool' : OrderPool} {l r : List UInt32}
    (hent : Entry e.levelsOf (Function.update e.levelsOf 0 lv) e.pool pool'
      (0, order.side.bookSide) order (UInt32.ofNat (kept Live st n).length) l r)
    (hfree : PoolRep pool' (placeSlots (Function.update e.levelsOf 0 lv) pool'.storage)
      ((List.range' ((kept Live st n).length + 1) (c - ((kept Live st n).length + 1))).map
        UInt32.ofNat))
    (hlev : e'.levelsOf = Function.update e.levelsOf 0 lv) (hpool : e'.pool = pool') :
    Packs st c (n + 1) e' := by
  have hm := length_kept_le Live st n
  have hkept : kept Live st (n + 1) = kept Live st n ++ [st n] := by
    rw [kept_succ, if_pos hlive]
  constructor
  case capacity => rw [hpool, hent.capacity, h.capacity]
  case levels => rw [hlev, hpool]; exact hent.rep.levels
  case free =>
    rw [hlev, hpool, hkept, List.length_append, List.length_singleton]
    exact hfree
  case cells =>
    intro i hi
    rw [hpool, packed_succ, if_pos hlive]
    by_cases him : i = (kept Live st n).length
    · subst him
      rw [Function.update_self, ← hdata]
      exact hent.new
    · rw [Function.update_of_ne him, ← h.cells i hi]
      refine hent.data _ fun heq => him ?_
      have hnat := congrArg UInt32.toNat heq
      rwa [toNat_ofNat_of_lt h.le_pow hi, toNat_ofNat_of_lt h.le_pow (by omega)] at hnat
  case orders =>
    intro π price
    rw [hlev, hpool, hent.levelData_eq, h.orders, hkept, List.filter_append]
    congr 1
    -- The order is of the side it enters, so the two tests agree.
    have hside : order.side = (st n).1.side := congrArg (fun x => x.1.side) hdata
    have hprice : order.price = (st n).1.price := congrArg (fun x => x.1.price) hdata
    have hiff : (π = (0, order.side.bookSide) ∧ order.price = price) ↔
        (π.1 = 0 ∧ (st n).1.side.bookSide = π.2 ∧ (st n).1.price = price) := by
      obtain ⟨l, d⟩ := π
      rw [hprice, hside, Prod.mk.injEq, and_assoc]
      exact and_congr_right fun _ => and_congr_left fun _ => eq_comm
    by_cases hc : π = (0, order.side.bookSide) ∧ order.price = price
    · rw [if_pos hc, hdata, List.filter_cons_of_pos (by simpa using hiff.mp hc), List.filter_nil]
    · rw [if_neg hc, List.filter_cons_of_neg (by simpa using fun a b => mt hiff.mpr hc ⟨a, b⟩),
        List.filter_nil]

/-- One round of the scan. -/
theorem recoverSlot (h : Packs st c n e) (hn : n < c) :
    ∃ f : OrderMap → MatchingEngine, (∀ ix, Packs st c (n + 1) (f ix) ∧ (f ix).index = ix) ∧
      e.recoverSlot (UInt32.ofNat n)
        = if Live (st n) then
            (e.index.insert (st n).1.orderId (UInt32.ofNat (kept Live st n).length)).map
              fun r => f r.2
          else some (f e.index) := by
  -- The slot still holds what it held at the start.
  have hcell : (e.pool.storage (UInt32.ofNat n)).data = st n :=
    (h.cells n hn).trans (packed_of_scan_le (Nat.le_refl n))
  have hinfo : (e.pool.storage (UInt32.ofNat n)).toOrderInfo = (st n).1 :=
    congrArg Prod.fst hcell
  have hid : (e.pool.storage (UInt32.ofNat n)).orderId = (st n).1.orderId := by rw [hinfo]
  have hstatus : (e.pool.storage (UInt32.ofNat n)).status = (st n).1.status := by rw [hinfo]
  have hskip : ∀ ix, ¬ Live (st n) → Packs st c (n + 1) { e with index := ix } ∧
      ({ e with index := ix } : MatchingEngine).index = ix :=
    fun ix hlive => ⟨(h.succ_of_not_live hlive).congr rfl rfl, rfl⟩
  have hbook : e.book 0 = ⟨e.levelsOf 0, e.pool, e.index⟩ := rfl
  unfold MatchingEngine.recoverSlot
  simp only [hid, hstatus]
  -- The copy without neighbours that `addOrder` gets.
  obtain ⟨order, horder⟩ : ∃ order : Order, order = { e.pool.storage (UInt32.ofNat n) with
    prevIdx := uint32Max, nextIdx := uint32Max } := ⟨_, rfl⟩
  rw [← horder]
  have hodata : order.data = st n := by
    rw [horder]
    exact hcell
  have hoside : order.side = (st n).1.side := congrArg (fun x => x.1.side) hodata
  have hoid : order.orderId = (st n).1.orderId := congrArg (fun x => x.1.orderId) hodata
  by_cases h0 : (st n).1.orderId = 0
  · have hlive : ¬ Live (st n) := fun hl => hl.1 h0
    exact ⟨fun ix => { e with index := ix }, fun ix => hskip ix hlive, by simp [h0, hlive]⟩
  rw [if_neg h0]
  by_cases hs : (st n).1.status = .filled ∨ (st n).1.status = .cancelled
  · have hlive : ¬ Live (st n) := fun hl => hs.elim hl.2.1 hl.2.2.1
    exact ⟨fun ix => { e with index := ix }, fun ix => hskip ix hlive, by simp [hs, hlive]⟩
  rw [if_neg hs]
  by_cases hinv : (st n).1.side = .invalid
  · -- `addOrder` refuses the order; the counters move all the same.
    have hlive : ¬ Live (st n) := fun hl => hl.2.2.2 hinv
    have hlev : (e.putBook 0 (e.book 0)).levelsOf = e.levelsOf := by
      rw [levelsOf_putBook]
      exact Function.update_eq_self _ _
    refine ⟨fun ix => { (e.putBook 0 (e.book 0)).passOrder
        (e.pool.storage (UInt32.ofNat n)) with index := ix }, fun ix =>
      ⟨(h.succ_of_not_live hlive).congr hlev rfl, rfl⟩, ?_⟩
    rw [if_neg hlive, hbook, h.booksRep.addOrder_refused 0 (Or.inl (hoside.trans hinv))]
    rfl
  · have hlive : Live (st n) := ⟨h0, fun e => hs (Or.inl e), fun e => hs (Or.inr e), hinv⟩
    have hm := length_kept_le Live st n
    have hfree := h.free
    rw [show c - (kept Live st n).length = (c - ((kept Live st n).length + 1)) + 1 by omega,
      List.range'_succ, List.map_cons] at hfree
    obtain ⟨lv, pool', l, r, heq, hent, hfree'⟩ :=
      h.booksRep.addOrder_of_free 0 (hoside ▸ hinv) hfree e.index
    refine ⟨fun ix => (e.putBook 0 ⟨lv, pool', ix⟩).passOrder (pool'.storage (UInt32.ofNat n)),
      fun ix => ⟨h.succ_of_entry hn hlive hodata hent hfree' (e.levelsOf_putBook 0 _) rfl, rfl⟩,
      ?_⟩
    rw [if_pos hlive, hbook, heq, hoid]
    cases e.index.insert (st n).1.orderId (UInt32.ofNat (kept Live st n).length) <;> rfl

/-- The scan, if it comes back. -/
theorem of_recoverSlots (h : Packs st c n e) (hle : n + k ≤ c)
    (hr : recoverSlots k n e = some e') : Packs st c (n + k) e' := by
  induction k generalizing n e with
  | zero =>
      rw [recoverSlots, Option.some.injEq] at hr
      exact hr ▸ h
  | succ k ih =>
      obtain ⟨f, hf, hslot⟩ := h.recoverSlot (show n < c by omega)
      simp only [recoverSlots, Option.bind_eq_bind, Option.bind_eq_some_iff] at hr
      obtain ⟨e₁, he₁, hr⟩ := hr
      obtain ⟨ix, rfl⟩ : ∃ ix, f ix = e₁ := by
        rw [he₁] at hslot
        split at hslot
        · obtain ⟨r, -, hr⟩ := Option.map_eq_some_iff.mp hslot.symm
          exact ⟨_, hr⟩
        · exact ⟨_, (Option.some.inj hslot).symm⟩
      have hnext := ih (hf ix).1 (by omega) hr
      rwa [show n + (k + 1) = n + 1 + k by omega]

/-- The scan comes back if the ids of the live slots are distinct and new to the index. -/
theorem exists_recoverSlots (h : Packs st c n e) (hle : n + k ≤ c) (hwf : e.index.Wf)
    (hids : ∀ i < c, ∀ j < c, Live (st i) → Live (st j) →
      (st i).1.orderId = (st j).1.orderId → i = j)
    (hnew : ∀ i, n ≤ i → i < c → Live (st i) → e.index.lookup (st i).1.orderId = none) :
    ∃ e', recoverSlots k n e = some e' := by
  induction k generalizing n e with
  | zero => exact ⟨e, rfl⟩
  | succ k ih =>
      obtain ⟨f, hf, hslot⟩ := h.recoverSlot (show n < c by omega)
      have hsame : ∀ i, n + 1 ≤ i → i < c → Live (st i) →
          (f e.index).index.lookup (st i).1.orderId = none := by
        intro i hi hc hl
        rw [(hf e.index).2]
        exact hnew i (by omega) hc hl
      simp only [recoverSlots, hslot]
      by_cases hlive : Live (st n)
      · rw [if_pos hlive]
        have habsent := hnew n (Nat.le_refl n) (by omega) hlive
        rcases OrderMap.insert_spec hwf habsent (UInt32.ofNat (kept Live st n).length) with
          ⟨-, hins⟩ | ⟨-, index', hins, hwf', hlook⟩
        · -- The table drops the entry and is as before.
          rw [hins]
          exact ih (hf e.index).1 (by omega) (by rw [(hf e.index).2]; exact hwf) hsame
        · rw [hins]
          refine ih (hf index').1 (by omega) (by rw [(hf index').2]; exact hwf')
            fun i hi hc hl => ?_
          have hne : (st i).1.orderId ≠ (st n).1.orderId := by
            intro heq
            have hin := hids i hc n (by omega) hl hlive heq
            omega
          rw [(hf index').2, hlook, if_neg hne]
          exact hnew i (by omega) hc hl
      · rw [if_neg hlive]
        exact ih (hf e.index).1 (by omega) (by rw [(hf e.index).2]; exact hwf) hsame

end Packs

/-! ### The whole call -/

section
variable {storage : UInt32 → Order} {c : Nat} {metrics : Option IOCounters}
variable {wal : Option WalWriter} {tradePool : Option TradePool} {d₀ d : MatchingEngine}

/-- The new engine, its free list rebuilt and book 0 opened. -/
theorem exists_packs_start
    (h₀ : ofPool (.ofStorage storage c false) metrics wal tradePool = some d₀) :
    ∃ d₁, Packs (cells storage) c 0 d₁ ∧ d₁.index.Wf ∧ (∀ k, d₁.index.lookup k = none) ∧
      d₀.recoverFromShared c = (recoverSlots c 0 d₁).map countPool ∧
      { d₀ with pool := d₀.pool.rebuildFreelist }.bookFor 0 = some d₁ := by
  simp only [ofPool, Option.bind_eq_bind, Option.bind_eq_some_iff, pure,
    Option.some.injEq] at h₀
  obtain ⟨index, hindex, rfl⟩ := h₀
  change OrderMap.ofCapacity c = some index at hindex
  obtain ⟨h2, hc⟩ := OrderMap.ofCapacity_bounds hindex
  obtain ⟨hwf, hlook⟩ := OrderMap.ofCapacity_spec hindex
  obtain ⟨pool, hpool⟩ : ∃ pool, pool = OrderPool.ofStorage storage c false := ⟨_, rfl⟩
  have hcap : pool.capacity = c := by rw [hpool]; rfl
  have hrep := PoolRep.rebuildFreelist (κ := Place) (hcap ▸ h2) (hcap ▸ hc)
  rw [← hpool]
  obtain ⟨e, he⟩ : ∃ e : MatchingEngine, e = ⟨fun _ => none, pool.rebuildFreelist, index, 1, 1,
    metrics, wal, tradePool, 0, 0⟩ := ⟨_, rfl⟩
  -- There are no books, so no place has a slot.
  have hlev : e.levelsOf = fun _ => {} := by rw [he]; rfl
  have hslots : ∀ st, placeSlots (fun _ => ({} : BookLevels)) st = fun _ => [] := by
    intro st
    funext π
    obtain ⟨l, d⟩ := π
    cases d <;> rfl
  have hpacks : Packs (cells storage) c 0 e := by
    have hp : e.pool = pool.rebuildFreelist := by rw [he]
    constructor
    case capacity => rw [hp]; exact hcap
    case levels =>
      rintro ⟨l, d⟩
      rw [hlev]
      cases d <;> exact fun x hx => by simp [BookLevels.levels] at hx
    case free =>
      rw [hlev, hslots, hp, ← hcap]
      exact hrep
    case cells =>
      intro i hi
      rw [packed_of_scan_le (Nat.zero_le i), hp, cells, OrderPool.data_rebuildFreelist, hpool]
      rfl
    case orders =>
      intro π price
      rw [hlev, levelData, hslots]
      rfl
  rcases e.bookFor_spec 0 with ⟨hle, -⟩ | ⟨-, d₁, hd₁, hsame⟩
  · exact absurd hle (by decide)
  refine ⟨d₁, hpacks.congr hsame.levelsOf hsame.pool, ?_, ?_, ?_, ?_⟩
  · rw [hsame.index, he]
    exact hwf
  · rw [hsame.index, he]
    exact hlook
  · rw [recoverFromShared]
    simp only [← he, hd₁]
    exact Option.map_eq_bind.symm
  · rw [← hd₁, he]

/-- The engine a recovery leaves. -/
theorem packs_of_recoverFromShared
    (h₀ : ofPool (.ofStorage storage c false) metrics wal tradePool = some d₀)
    (hr : d₀.recoverFromShared c = some d) : Packs (cells storage) c c d := by
  obtain ⟨d₁, hstart, -, -, heq, -⟩ := exists_packs_start h₀
  rw [heq, Option.map_eq_some_iff] at hr
  obtain ⟨d₂, hd₂, rfl⟩ := hr
  have hend := hstart.of_recoverSlots (Nat.zero_add c).le hd₂
  rw [Nat.zero_add] at hend
  exact hend.congr rfl rfl

/-- A recovery comes back if no two live slots share an id. -/
theorem exists_recoverFromShared
    (h₀ : ofPool (.ofStorage storage c false) metrics wal tradePool = some d₀)
    (hids : ∀ i < c, ∀ j < c, Live (cells storage i) → Live (cells storage j) →
      (cells storage i).1.orderId = (cells storage j).1.orderId → i = j) :
    ∃ d, d₀.recoverFromShared c = some d := by
  obtain ⟨d₁, hstart, hwf, hlook, heq, -⟩ := exists_packs_start h₀
  obtain ⟨d₂, hd₂⟩ := hstart.exists_recoverSlots (Nat.zero_add c).le hwf hids fun i _ _ _ => hlook _
  exact ⟨d₂.countPool, by rw [heq, hd₂]; rfl⟩

end

end MatchingEngine

end NebulaX
