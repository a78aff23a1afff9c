import NebulaX.Proofs.Runs

/-!
# `NebulaX.Proofs.View`: a book without its slot numbers

Two engines can hold the same book in different slots. `bookView` reads off a book what does
not depend on the slots: for every side and price the count and total of the level and its
orders in serving order. `EntriesRep.bookView_eq` says that the view is determined by the
queue of the side, so equal queues are equal books (`SameBook.of_queues`).
-/

set_option autoImplicit false

namespace NebulaX

open NebulaX.Lib

/-- A price level without slot numbers. -/
structure LevelView (α : Type) where
  count : UInt32
  totalQty : UInt32
  orders : List α
  deriving DecidableEq, Repr

/-- The level at a price of a queue whose entries carry orders. -/
def levelAt {α : Type} (order : α → OrderInfo) (price : UInt32) (q : List α) :
    Option (LevelView α) :=
  let level := q.filter fun a => (order a).price = price
  if level.isEmpty then none
  else some ⟨UInt32.ofNat level.length, (level.map fun a => (order a).remainingQty).sum, level⟩

/-- The level of a side at a price, with `read` applied to its slots in serving order. -/
def bookView {α : Type} (levels : BookLevels) (storage : UInt32 → Order) (read : UInt32 → α)
    (d : BookSide) (price : UInt32) : Option (LevelView α) :=
  ((levels.levels d).find? price).map fun lvl =>
    ⟨lvl.count, lvl.totalQty, (lvl.slots storage).map read⟩

section
variable {st : UInt32 → Order} {d : BookSide} {m : LevelMap d} {price : UInt32}

/-- The slots of a level are the slots of its side with its price. -/
theorem EntriesRep.slots_eq_filter (h : EntriesRep st d m.entries) {lvl : PriceLevel}
    (hl : m.find? price = some lvl) :
    lvl.slots st = (entrySlots st m.entries).filter fun i => (st i).price = price := by
  obtain ⟨pre, post, hsplit, hpre, hpost, -⟩ := SortedMap.entries_of_find?_eq_some hl
  rw [hsplit] at h ⊢
  -- The prices of the other levels differ, since the map is strictly sorted.
  have hother : ∀ es : List (UInt32 × PriceLevel), (∀ x ∈ es, x ∈ pre ++ (price, lvl) :: post) →
      (∀ x ∈ es, x.1 ≠ price) →
      (entrySlots st es).filter (fun i => (st i).price = price) = [] := by
    intro es hmem hne
    rw [List.filter_eq_nil_iff]
    intro i hi
    obtain ⟨x, hx, hix⟩ := List.mem_flatMap.mp hi
    have hp := ((h x (hmem x hx)).orders i hix).2
    simpa [hp] using hne x hx
  have hself : (lvl.slots st).filter (fun i => (st i).price = price) = lvl.slots st := by
    rw [List.filter_eq_self]
    intro i hi
    simpa using ((h (price, lvl) (by simp)).orders i hi).2
  rw [entrySlots_append, entrySlots_cons, List.filter_append, List.filter_append, hself,
    hother pre (fun x hx => by simp [hx]) fun x hx e =>
      irrefl_of d.Better price (by simpa [e] using hpre x hx),
    hother post (fun x hx => by simp [hx]) fun x hx e =>
      irrefl_of d.Better price (by simpa [e] using hpost x hx)]
  simp

/-- Without a level at a price, no slot of the side has the price. -/
theorem EntriesRep.filter_eq_nil (h : EntriesRep st d m.entries) (hl : m.find? price = none) :
    (entrySlots st m.entries).filter (fun i => (st i).price = price) = [] := by
  rw [List.filter_eq_nil_iff]
  intro i hi
  obtain ⟨lvl, hlvl, -⟩ := h.level_of_mem hi
  have hne : (st i).price ≠ price := by
    rintro rfl
    rw [hl] at hlvl
    exact absurd hlvl (by simp)
  simpa using hne

end

/-- The view of a well-formed side is determined by its queue. -/
theorem EntriesRep.bookView_eq {α : Type} {levels : BookLevels} {st : UInt32 → Order}
    {d : BookSide} (h : EntriesRep st d (levels.levels d).entries) (read : UInt32 → α)
    (order : α → OrderInfo) (hread : ∀ i, order (read i) = (st i).toOrderInfo) (price : UInt32) :
    bookView levels st read d price
      = levelAt order price ((entrySlots st (levels.levels d).entries).map read) := by
  have hfilter : ((entrySlots st (levels.levels d).entries).map read).filter
      (fun a => (order a).price = price)
      = ((entrySlots st (levels.levels d).entries).filter fun i => (st i).price = price).map
          read := by
    rw [List.filter_map]
    congr 1
    refine List.filter_congr fun i _ => ?_
    simp [hread]
  unfold bookView levelAt
  simp only [hfilter]
  cases hl : (levels.levels d).find? price with
  | none =>
      rw [h.filter_eq_nil hl]
      rfl
  | some lvl =>
      have hrep := h (price, lvl) (SortedMap.mem_entries_iff.mpr hl)
      rw [← h.slots_eq_filter hl, if_neg (by simpa using hrep.nonempty)]
      simp only [Option.map_some, Option.some.injEq, LevelView.mk.injEq, and_true]
      refine ⟨?_, ?_⟩
      · rw [List.length_map, ← hrep.count, UInt32.ofNat_toNat]
      · rw [hrep.total, List.map_map]
        refine congrArg List.sum (List.map_congr_left fun i _ => ?_)
        simp [hread]

namespace MatchingEngine

/-- The level of a side of a book at a price, without slot numbers. -/
def levelView (e : MatchingEngine) (π : Place) (price : UInt32) : Option (LevelView OrderInfo) :=
  bookView (e.levelsOf π.1) e.pool.storage e.pool.info π.2 price

/-- The two engines hold the same book: the same levels on both sides, with the same counts,
totals and orders, in the same order. -/
def SameBook (locate : UInt64) (e e' : MatchingEngine) : Prop :=
  ∀ d price, e.levelView (locate, d) price = e'.levelView (locate, d) price

/-- The view of a book is determined by the queues of the exchange. -/
theorem Inv.levelView_eq {e : MatchingEngine} (h : e.Inv) (π : Place) (price : UInt32) :
    e.levelView π price = levelAt id price (e.abs.queues π) :=
  (h.levels π).bookView_eq e.pool.info id (fun _ => rfl) price

/-- Equal queues are equal books. -/
theorem SameBook.of_queues {e e' : MatchingEngine} (h : e.Inv) (h' : e'.Inv) {locate : UInt64}
    (hq : ∀ d, e.abs.queues (locate, d) = e'.abs.queues (locate, d)) : SameBook locate e e' := by
  intro d price
  rw [h.levelView_eq, h'.levelView_eq, hq]

end MatchingEngine

end NebulaX
