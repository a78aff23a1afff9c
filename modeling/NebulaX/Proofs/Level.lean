import Mathlib.Algebra.BigOperators.Group.List.Basic
import Mathlib.Data.UInt
import Mathlib.Tactic.Abel
import NebulaX.Engine.OrderBook
import NebulaX.Lib.DList

/-!
# `NebulaX.Proofs.Level`: the price levels of one side

`LevelRep st d price lvl xs` is the representation of one price level: the slots `xs`, head
to tail, form a doubly linked list through the pool, `count` is its length, `total_qty` the
sum of the remaining quantities, and every order in it has the level's side and price.

The slots are not a ghost: `PriceLevel.slots` reads them from the pool, and
`LevelRep.slots_eq` says that it reads the list of the relation. `EntriesRep` is the
invariant of a whole side and `entrySlots` are its slots in the order they are served.

The four surgeries on a level are one lemma each:

* `LevelRep.singleton` and `LevelRep.snoc`: a slot enters an empty level, or at the tail;
* `LevelRep.remove`: a slot leaves, wherever it stands;
* `LevelRep.reduce`: the remaining quantity of one slot goes down.

What is outside the level is kept by `EntriesRep.congr`: a side reads its own slots only.
-/

set_option autoImplicit false

namespace NebulaX

open NebulaX.Lib

/-- An order of this side may rest, and `d` is where it does. -/
def Side.RestsOn (s : Side) (d : BookSide) : Prop := s ≠ .invalid ∧ s.bookSide = d

/-- What a level reads of a slot: its two links, its quantity, its side and its price. -/
def Order.bookPart (o : Order) : UInt32 × UInt32 × UInt32 × Side × UInt32 :=
  (o.prevIdx, o.nextIdx, o.remainingQty, o.side, o.price)

/-- The slots of a level, head to tail, as the pool links them. -/
def PriceLevel.slots (st : UInt32 → Order) (lvl : PriceLevel) : List UInt32 :=
  walk (fun i => (st i).nextIdx) uint32Max lvl.count.toNat lvl.headIdx

/-- The level holds the slots `xs`, head to tail. -/
structure LevelRep (st : UInt32 → Order) (d : BookSide) (price : UInt32) (lvl : PriceLevel)
    (xs : List UInt32) : Prop where
  list : DList (fun i => (st i).prevIdx) (fun i => (st i).nextIdx) uint32Max lvl.headIdx
    lvl.tailIdx xs
  count : lvl.count.toNat = xs.length
  total : lvl.totalQty = (xs.map fun i => (st i).remainingQty).sum
  nonempty : xs ≠ []
  orders : ∀ i ∈ xs, (st i).side.RestsOn d ∧ (st i).price = price

namespace LevelRep

variable {st st' : UInt32 → Order} {d : BookSide} {price : UInt32} {lvl : PriceLevel}
variable {xs l r : List UInt32} {idx : UInt32}

/-- The pool determines the slots. -/
theorem slots_eq (h : LevelRep st d price lvl xs) : lvl.slots st = xs :=
  h.list.chain.walk_eq (Nat.le_of_eq h.count.symm)

/-- A level in use is not counted empty. -/
theorem count_ne_zero (h : LevelRep st d price lvl xs) : lvl.count ≠ 0 := by
  intro h0
  have hc := h.count
  rw [h0] at hc
  exact h.nonempty (List.eq_nil_of_length_eq_zero hc.symm)

/-- A level reads its own slots only. -/
theorem congr (h : LevelRep st d price lvl xs)
    (ha : ∀ i ∈ xs, (st' i).bookPart = (st i).bookPart) : LevelRep st' d price lvl xs := by
  simp only [Order.bookPart, Prod.mk.injEq] at ha
  refine ⟨h.list.congr (fun i hi => (ha i hi).1) fun i hi => (ha i hi).2.1, h.count, ?_,
    h.nonempty, fun i hi => ?_⟩
  · rw [h.total]
    exact congrArg List.sum (List.map_congr_left fun i hi => (ha i hi).2.2.1.symm)
  · obtain ⟨-, -, -, hs, hp⟩ := ha i hi
    rw [hs, hp]
    exact h.orders i hi

/-- A level of one order. -/
theorem singleton (hne : idx ≠ uint32Max) (hp : (st idx).prevIdx = uint32Max)
    (hn : (st idx).nextIdx = uint32Max) (hs : (st idx).side.RestsOn d) :
    LevelRep st d (st idx).price ⟨idx, idx, 1, (st idx).remainingQty⟩ [idx] where
  list := DList.singleton hne hp hn
  count := rfl
  total := by simp
  nonempty := by simp
  orders i hi := by
    rw [List.mem_singleton] at hi
    subst hi
    exact ⟨hs, rfl⟩

/-- The pool after slot `idx` was linked behind the tail of a level. -/
def linkedBehind (st : UInt32 → Order) (tail idx : UInt32) : UInt32 → Order :=
  let st₁ := Function.update st idx { st idx with prevIdx := tail, nextIdx := uint32Max }
  Function.update st₁ tail { st₁ tail with nextIdx := idx }

/-- `linkedBehind` slot by slot. -/
theorem linkedBehind_apply (st : UInt32 → Order) {tail : UInt32} (hti : tail ≠ idx) (i : UInt32) :
    linkedBehind st tail idx i =
      { st i with
        prevIdx := if i = idx then tail else (st i).prevIdx
        nextIdx := if i = tail then idx else if i = idx then uint32Max else (st i).nextIdx } := by
  unfold linkedBehind
  by_cases h1 : i = tail
  · subst h1
    simp [hti]
  · by_cases h2 : i = idx
    · subst h2
      simp [h1]
    · simp [h1, h2]

/-- A new slot at the tail of a level. -/
theorem snoc (h : LevelRep st d price lvl xs) (hne : idx ≠ uint32Max) (hnew : idx ∉ xs)
    (hs : (st idx).side.RestsOn d) (hp : (st idx).price = price)
    (hlen : xs.length + 1 < 2 ^ 32) :
    LevelRep (linkedBehind st lvl.tailIdx idx) d price
      ⟨lvl.headIdx, idx, lvl.count + 1, lvl.totalQty + (st idx).remainingQty⟩
      (xs ++ [idx]) := by
  have hti : lvl.tailIdx ≠ idx := fun e => hnew (e ▸ h.list.tail_mem h.nonempty)
  have happ := linkedBehind_apply st hti
  refine ⟨?_, ?_, ?_, by simp, fun i hi => ?_⟩
  · refine (h.list.snoc h.nonempty hne hnew).congr (fun i _ => ?_) fun i _ => ?_
    · rw [happ]
      by_cases hi : i = idx
      · subst hi
        simp
      · simp [hi]
    · rw [happ]
      by_cases hi : i = lvl.tailIdx
      · subst hi
        simp
      · by_cases hi' : i = idx
        · subst hi'
          simp [hi]
        · simp [hi, hi']
  · rw [UInt32.toNat_add, h.count, List.length_append]
    simp only [UInt32.reduceToNat, List.length_singleton]
    omega
  · simp only [happ, List.map_append, List.map_cons, List.map_nil, List.sum_append,
      List.sum_cons, List.sum_nil, add_zero]
    rw [h.total]
  · rw [happ]
    rcases List.mem_append.mp hi with hi | hi
    · exact h.orders i hi
    · rw [List.mem_singleton] at hi
      subst hi
      exact ⟨hs, hp⟩

/-- The pool after the neighbours of slot `idx` were joined. -/
def unlinkedFrom (st : UInt32 → Order) (idx : UInt32) : UInt32 → Order :=
  let st₁ :=
    if (st idx).prevIdx ≠ uint32Max then
      Function.update st (st idx).prevIdx
        { st (st idx).prevIdx with nextIdx := (st idx).nextIdx }
    else st
  if (st₁ idx).nextIdx ≠ uint32Max then
    Function.update st₁ (st₁ idx).nextIdx
      { st₁ (st₁ idx).nextIdx with prevIdx := (st₁ idx).prevIdx }
  else st₁

/-- `unlinkedFrom` slot by slot, for a slot that is not its own neighbour. -/
theorem unlinkedFrom_apply (hp : (st idx).prevIdx ≠ idx) (i : UInt32) :
    unlinkedFrom st idx i =
      { st i with
        prevIdx := if (st idx).nextIdx ≠ uint32Max ∧ i = (st idx).nextIdx
          then (st idx).prevIdx else (st i).prevIdx
        nextIdx := if (st idx).prevIdx ≠ uint32Max ∧ i = (st idx).prevIdx
          then (st idx).nextIdx else (st i).nextIdx } := by
  have hset : ∀ st₁ : UInt32 → Order, st₁ idx = st idx →
      (if (st₁ idx).nextIdx ≠ uint32Max then
        Function.update st₁ (st₁ idx).nextIdx
          { st₁ (st₁ idx).nextIdx with prevIdx := (st₁ idx).prevIdx }
      else st₁) i
      = { st₁ i with
          prevIdx := if (st idx).nextIdx ≠ uint32Max ∧ i = (st idx).nextIdx
            then (st idx).prevIdx else (st₁ i).prevIdx } := by
    intro st₁ h₁
    rw [h₁]
    by_cases hn : (st idx).nextIdx = uint32Max
    · simp [hn]
    · by_cases hi : i = (st idx).nextIdx
      · rw [← hi] at hn ⊢
        simp [hn]
      · simp [hn, hi]
  unfold unlinkedFrom
  by_cases hpn : (st idx).prevIdx = uint32Max
  · simpa [hpn] using hset st rfl
  · simp only [ne_eq, hpn, not_false_eq_true, if_true, true_and]
    rw [hset _ (Function.update_of_ne (Ne.symm hp) _ _)]
    by_cases hi : i = (st idx).prevIdx
    · rw [← hi]
      simp
    · simp [hi]

/-- The neighbours of a slot of a level are other slots. -/
theorem prev_ne (h : LevelRep st d price lvl (l ++ idx :: r)) : (st idx).prevIdx ≠ idx := by
  obtain ⟨hp, -⟩ := h.list.links
  intro e
  rw [e] at hp
  cases hl : l with
  | nil =>
      rw [hl] at hp
      exact h.list.chain.ne_nil_of_mem (x := idx) (by simp) hp
  | cons y ys =>
      have hmem : idx ∈ l := hp ▸ getLastD_mem (by simp [hl]) uint32Max
      exact (List.nodup_append.mp h.list.nodup).2.2 idx hmem idx (by simp) rfl

/-- A slot leaves a level that keeps other orders. -/
theorem remove (h : LevelRep st d price lvl (l ++ idx :: r)) (hrest : l ++ r ≠ []) :
    LevelRep (unlinkedFrom st idx) d price
      (OrderBook.levelWithout lvl idx (unlinkedFrom st idx idx)) (l ++ r) := by
  have happ := unlinkedFrom_apply h.prev_ne
  have hnext : (st idx).nextIdx ≠ idx := by
    intro e
    have hc := h.list.chain.suffix
    have hlen := congrArg List.length ((e ▸ hc.2.2 : Chain _ uint32Max idx r).unique hc)
    simp at hlen
  have hself : unlinkedFrom st idx idx = st idx := by
    rw [happ]
    simp [Ne.symm h.prev_ne, Ne.symm hnext]
  refine ⟨?_, ?_, ?_, hrest, fun i hi => ?_⟩
  · rw [hself]
    refine h.list.remove.congr (fun i _ => ?_) fun i _ => ?_
    · rw [happ]
      by_cases hn : (st idx).nextIdx = uint32Max
      · simp [hn]
      · by_cases hi : i = (st idx).nextIdx
        · rw [← hi] at hn ⊢
          simp [hn]
        · simp [hn, hi]
    · rw [happ]
      by_cases hn : (st idx).prevIdx = uint32Max
      · simp [hn]
      · by_cases hi : i = (st idx).prevIdx
        · rw [← hi] at hn ⊢
          simp [hn]
        · simp [hn, hi]
  · have hc := h.count
    rw [List.length_append, List.length_cons] at hc
    show (lvl.count - 1).toNat = _
    rw [UInt32.toNat_sub_of_le _ _ (by rw [UInt32.le_iff_toNat_le, hc]; simp; omega), hc,
      List.length_append]
    simp only [UInt32.reduceToNat]
    omega
  · have hq : ∀ i, (unlinkedFrom st idx i).remainingQty = (st i).remainingQty := by
      intro i
      rw [happ]
    show lvl.totalQty - (unlinkedFrom st idx idx).remainingQty = _
    simp only [hq]
    rw [h.total]
    simp only [List.map_append, List.map_cons, List.sum_append, List.sum_cons]
    abel
  · have ho := h.orders i (by
      simp only [List.mem_append, List.mem_cons] at hi ⊢
      tauto)
    rw [happ]
    exact ho

/-- The last slot leaves: the level counts nothing. -/
theorem count_levelWithout (h : LevelRep st d price lvl [idx]) (o : Order) :
    (OrderBook.levelWithout lvl idx o).count = 0 := by
  have hc : lvl.count = 1 := by
    rw [← UInt32.toNat_inj, h.count]
    rfl
  simp [OrderBook.levelWithout, hc]

/-- The quantity of one slot goes down, and the level's sum with it. -/
theorem reduce {amount : UInt32} (h : LevelRep st d price lvl xs) (hmem : idx ∈ xs)
    (hother : ∀ i, i ≠ idx → st' i = st i)
    (hidx : (st' idx).bookPart
      = { st idx with remainingQty := (st idx).remainingQty - amount }.bookPart) :
    LevelRep st' d price { lvl with totalQty := lvl.totalQty - amount } xs := by
  simp only [Order.bookPart, Prod.mk.injEq] at hidx
  obtain ⟨hp, hn, hq, hs, hpr⟩ := hidx
  -- Every field but the quantity is the old one in every slot.
  have hsame : ∀ i, (st' i).prevIdx = (st i).prevIdx ∧ (st' i).nextIdx = (st i).nextIdx ∧
      (st' i).side = (st i).side ∧ (st' i).price = (st i).price := by
    intro i
    by_cases hi : i = idx
    · subst hi
      exact ⟨hp, hn, hs, hpr⟩
    · rw [hother i hi]
      exact ⟨rfl, rfl, rfl, rfl⟩
  refine ⟨h.list.congr (fun i _ => (hsame i).1) fun i _ => (hsame i).2.1, h.count, ?_,
    h.nonempty, fun i hi => ?_⟩
  · obtain ⟨l, r, rfl⟩ := List.append_of_mem hmem
    have hnd := h.list.nodup
    have hrest : ∀ i ∈ l ++ r, (st' i).remainingQty = (st i).remainingQty := by
      intro i hi
      rw [hother]
      rintro rfl
      exact (List.nodup_cons.mp (List.nodup_middle.mp hnd)).1 hi
    rw [h.total]
    simp only [List.map_append, List.map_cons, List.sum_append, List.sum_cons, hq]
    rw [List.map_congr_left fun i hi => hrest i (by simp [hi]),
      List.map_congr_left fun i hi => hrest i (by simp [hi])]
    abel
  · rw [(hsame i).2.2.1, (hsame i).2.2.2]
    exact h.orders i hi

end LevelRep

/-! ### A whole side -/

/-- The slots of a list of levels, in the order they are served. -/
def entrySlots (st : UInt32 → Order) (es : List (UInt32 × PriceLevel)) : List UInt32 :=
  es.flatMap fun e => e.2.slots st

@[simp] theorem entrySlots_nil (st : UInt32 → Order) : entrySlots st [] = [] := rfl

@[simp] theorem entrySlots_cons (st : UInt32 → Order) (e : UInt32 × PriceLevel)
    (es : List (UInt32 × PriceLevel)) :
    entrySlots st (e :: es) = e.2.slots st ++ entrySlots st es := rfl

@[simp] theorem entrySlots_append (st : UInt32 → Order) (es es' : List (UInt32 × PriceLevel)) :
    entrySlots st (es ++ es') = entrySlots st es ++ entrySlots st es' :=
  List.flatMap_append

/-- Every level of the list is represented by the slots the pool links for it. -/
def EntriesRep (st : UInt32 → Order) (d : BookSide) (es : List (UInt32 × PriceLevel)) : Prop :=
  ∀ e ∈ es, LevelRep st d e.1 e.2 (e.2.slots st)

namespace EntriesRep

variable {st st' : UInt32 → Order} {d : BookSide} {es es' : List (UInt32 × PriceLevel)}

/-- The parts of a list of levels. -/
theorem append_iff : EntriesRep st d (es ++ es') ↔ EntriesRep st d es ∧ EntriesRep st d es' :=
  List.forall_mem_append

/-- The first level and the others. -/
theorem cons_iff {e : UInt32 × PriceLevel} :
    EntriesRep st d (e :: es) ↔ LevelRep st d e.1 e.2 (e.2.slots st) ∧ EntriesRep st d es :=
  List.forall_mem_cons

/-- A side reads its own slots only. -/
theorem congr (h : EntriesRep st d es)
    (ha : ∀ i ∈ entrySlots st es, (st' i).bookPart = (st i).bookPart) :
    EntriesRep st' d es ∧ entrySlots st' es = entrySlots st es := by
  induction es with
  | nil => exact ⟨fun e he => by simp at he, rfl⟩
  | cons e es ih =>
      obtain ⟨he, hes⟩ := cons_iff.mp h
      obtain ⟨hrep, hslots⟩ := ih hes fun i hi => ha i (by simp [hi])
      have he' : LevelRep st' d e.1 e.2 (e.2.slots st) :=
        he.congr fun i hi => ha i (by simp [hi])
      refine ⟨cons_iff.mpr ⟨he'.slots_eq.symm ▸ he', hrep⟩, ?_⟩
      rw [entrySlots_cons, entrySlots_cons, hslots, he'.slots_eq]

/-- An order of a side has that side, and its price is the price of a level. -/
theorem order_of_mem (h : EntriesRep st d es) {i : UInt32} (hi : i ∈ entrySlots st es) :
    (st i).side.RestsOn d ∧ ∃ e ∈ es, (st i).price = e.1 ∧ i ∈ e.2.slots st := by
  obtain ⟨e, he, hie⟩ := List.mem_flatMap.mp hi
  obtain ⟨hs, hp⟩ := (h e he).orders i hie
  exact ⟨hs, e, he, hp, hie⟩

end EntriesRep

end NebulaX
