import NebulaX.Proofs.View

/-!
# `NebulaX.Proofs.Refill`: filling a book order by order

A recovery adds orders to an empty book one after the other. What it comes to is easier to say
level by level than queue by queue: `addOrder` appends the order to the level of its price and
leaves every other level of every book as it is (`Entry.levelData_eq`). The levels are read with
the arrival numbers, so nothing but the slots is forgotten.
-/

set_option autoImplicit false

namespace NebulaX

open NebulaX.Lib

/-- The orders of a side at a price with their arrival numbers, in serving order. -/
def levelData (B : UInt64 → BookLevels) (st : UInt32 → Order) (π : Place) (price : UInt32) :
    List (OrderInfo × UInt64) :=
  ((placeSlots B st π).map fun i => (st i).data).filter fun x => x.1.price = price

/-- `addOrder` appends the order to the level of its price. -/
theorem Entry.levelData_eq {B B' : UInt64 → BookLevels} {pool pool' : OrderPool} {π : Place}
    {order : Order} {idx : UInt32} {l r : List UInt32}
    (h : Entry B B' pool pool' π order idx l r) (π' : Place) (price : UInt32) :
    levelData B' pool'.storage π' price = levelData B pool.storage π' price ++
      if π' = π ∧ order.price = price then [order.data] else [] := by
  have hmap : ∀ xs : List UInt32, idx ∉ xs →
      xs.map (fun i => (pool'.storage i).data) = xs.map fun i => (pool.storage i).data := by
    intro xs hxs
    refine List.map_congr_left fun i hi => h.data i ?_
    rintro rfl
    exact hxs hi
  unfold levelData
  rw [h.after]
  by_cases hπ : π' = π
  · subst hπ
    have hfresh := h.fresh π'
    rw [h.before, List.mem_append, not_or] at hfresh
    rw [Function.update_self, h.before, List.map_append, List.map_append, List.map_cons, h.new,
      hmap l hfresh.1, hmap r hfresh.2, List.filter_append, List.filter_append]
    by_cases hp : order.price = price
    · -- Behind the new order stand worse prices only.
      have hr : (r.map fun i => (pool.storage i).data).filter (fun x => x.1.price = price)
          = [] := by
        rw [List.filter_eq_nil_iff]
        intro x hx
        obtain ⟨i, hi, rfl⟩ := List.mem_map.mp hx
        have hne : (pool.storage i).price ≠ price := by
          rintro rfl
          exact irrefl_of π'.2.Better _ (hp ▸ h.later i hi)
        simp [Order.data, hne]
      rw [List.filter_cons_of_pos (by simp [Order.data, hp]), hr, if_pos ⟨rfl, hp⟩,
        List.append_nil]
    · rw [List.filter_cons_of_neg (by simp [Order.data, hp]), if_neg fun e => hp e.2,
        List.append_nil]
  · rw [Function.update_of_ne hπ, hmap _ (h.fresh π'), if_neg fun e => hπ e.1, List.append_nil]

/-- The level at a price says as much as the orders at the price. -/
theorem levelAt_eq_iff {α : Type} (order : α → OrderInfo) (price : UInt32) (q q' : List α) :
    levelAt order price q = levelAt order price q' ↔
      q.filter (fun a => (order a).price = price) = q'.filter fun a => (order a).price = price := by
  unfold levelAt
  constructor
  · intro h
    simp only at h
    split at h <;> split at h
    · next hq hq' => rw [List.isEmpty_iff.mp hq, List.isEmpty_iff.mp hq']
    · exact absurd h (by simp)
    · exact absurd h (by simp)
    · simp only [Option.some.injEq, LevelView.mk.injEq] at h
      exact h.2.2
  · intro h
    simp only [h]

/-- Two sides with the same orders at a price have the same level there, arrival numbers
included. -/
theorem bookView_data_eq {B B' : UInt64 → BookLevels} {pool pool' : OrderPool}
    {locate locate' : UInt64} {d : BookSide} {price : UInt32} (h : BooksRep B pool)
    (h' : BooksRep B' pool') (hdata : levelData B pool.storage (locate, d) price
      = levelData B' pool'.storage (locate', d) price) :
    bookView (B locate) pool.storage (fun i => (pool.storage i).data) d price
      = bookView (B' locate') pool'.storage (fun i => (pool'.storage i).data) d price := by
  rw [(h.levels (locate, d)).bookView_eq _ Prod.fst fun _ => rfl,
    (h'.levels (locate', d)).bookView_eq _ Prod.fst fun _ => rfl, levelAt_eq_iff]
  exact hdata

namespace MatchingEngine

/-- Two engines hold the same book exactly if they have the same orders at every price. -/
theorem sameBook_iff {e e' : MatchingEngine} (h : BooksRep e.levelsOf e.pool)
    (h' : BooksRep e'.levelsOf e'.pool) {locate : UInt64} :
    SameBook locate e e' ↔ ∀ d price,
      (levelData e.levelsOf e.pool.storage (locate, d) price).map Prod.fst
        = (levelData e'.levelsOf e'.pool.storage (locate, d) price).map Prod.fst := by
  have hmap : ∀ (e : MatchingEngine) (d : BookSide) (price : UInt32),
      (levelData e.levelsOf e.pool.storage (locate, d) price).map Prod.fst
        = ((e.slots (locate, d)).map e.pool.info).filter fun o => (id o).price = price := by
    intro e d price
    rw [levelData, List.filter_map, List.filter_map, List.map_map]
    rfl
  refine forall_congr' fun d => forall_congr' fun price => ?_
  rw [hmap, hmap, ← levelAt_eq_iff]
  rw [show e.levelView (locate, d) price = levelAt id price ((e.slots (locate, d)).map e.pool.info)
      from (h.levels (locate, d)).bookView_eq e.pool.info id (fun _ => rfl) price,
    show e'.levelView (locate, d) price
        = levelAt id price ((e'.slots (locate, d)).map e'.pool.info)
      from (h'.levels (locate, d)).bookView_eq e'.pool.info id (fun _ => rfl) price]

end MatchingEngine

end NebulaX
