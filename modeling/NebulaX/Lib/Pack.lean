import Mathlib.Data.List.Perm.Subperm

/-!
# `NebulaX.Lib.Pack`: packing a store in place

A store is scanned from its first cell on, and every value that is kept is written to the next
cell from the front. The writer never overtakes the reader, so the scan sees the store as it was.
What it leaves behind the packed part is the old content, kept values included.

* `kept` are the values that are kept, in the order of the cells, and `packed` is the store
  afterwards;
* `packed_succ` is one round of the scan;
* `kept_packed` says what a second scan finds, and `kept_packed_eq_iff` when that is the same:
  exactly when the kept cells were an initial segment.

`map_eq_map_iff` compares the packed order with another one: a list of cells in scan order and
a second list of cells hold the same values exactly if they are the same cells in scan order.
-/

set_option autoImplicit false

namespace NebulaX.Lib

variable {α : Type} (keep : α → Prop) [DecidablePred keep]

/-- The values that are kept among the first `n` cells, in the order of the cells. -/
def kept (st : Nat → α) (n : Nat) : List α := ((List.range n).map st).filter keep

/-- The store after its first `n` cells were packed. -/
def packed (st : Nat → α) (n : Nat) : Nat → α := fun i => ((kept keep st n)[i]?).getD (st i)

theorem kept_succ (st : Nat → α) (n : Nat) :
    kept keep st (n + 1) = kept keep st n ++ if keep (st n) then [st n] else [] := by
  unfold kept
  rw [List.range_succ, List.map_append, List.filter_append]
  by_cases h : keep (st n) <;> simp [h]

theorem kept_congr {st st' : Nat → α} {n : Nat} (h : ∀ i < n, st i = st' i) :
    kept keep st n = kept keep st' n := by
  unfold kept
  rw [List.map_congr_left fun i hi => h i (List.mem_range.mp hi)]

/-- The first `m` cells and the cells behind them. -/
theorem kept_split (st : Nat → α) {m n : Nat} (h : m ≤ n) :
    kept keep st n = kept keep st m ++ ((List.range' m (n - m)).map st).filter keep := by
  have hsplit : List.range n = List.range m ++ List.range' m (n - m) := by
    have happ := @List.range'_append_1 0 m (n - m)
    rw [Nat.zero_add, show m + (n - m) = n by omega] at happ
    rw [List.range_eq_range', List.range_eq_range', happ]
  rw [kept, hsplit, List.map_append, List.filter_append, ← kept]

theorem length_kept_le (st : Nat → α) (n : Nat) : (kept keep st n).length ≤ n := by
  have h := List.length_filter_le (fun x => decide (keep x)) ((List.range n).map st)
  rwa [List.length_map, List.length_range] at h

/-- The packed part, as a list. -/
theorem map_packed (st : Nat → α) (n : Nat) :
    (List.range (kept keep st n).length).map (packed keep st n) = kept keep st n := by
  refine List.ext_getElem (by simp) fun i _ hi => ?_
  simp [packed, List.getElem?_eq_getElem hi]

variable {keep} {st : Nat → α} {n i : Nat}

theorem keep_of_mem_kept {x : α} (h : x ∈ kept keep st n) : keep x := by
  simpa using (List.mem_filter.mp h).2

/-- Behind the packed part the store is as it was. -/
theorem packed_of_le (h : (kept keep st n).length ≤ i) : packed keep st n i = st i := by
  rw [packed, List.getElem?_eq_none h, Option.getD_none]

/-- The scan has not overwritten what it has not read. -/
theorem packed_of_scan_le (h : n ≤ i) : packed keep st n i = st i :=
  packed_of_le (Nat.le_trans (length_kept_le keep st n) h)

variable (keep)

/-- One round: a value that is kept goes to the cell behind the packed part. -/
theorem packed_succ (st : Nat → α) (n : Nat) :
    packed keep st (n + 1)
      = if keep (st n) then Function.update (packed keep st n) (kept keep st n).length (st n)
        else packed keep st n := by
  funext i
  unfold packed
  by_cases h : keep (st n)
  · rw [kept_succ, if_pos h, if_pos h]
    by_cases hi : i = (kept keep st n).length
    · subst hi
      rw [Function.update_self]
      simp
    · rw [Function.update_of_ne hi]
      rcases Nat.lt_or_gt_of_ne hi with hlt | hgt
      · rw [List.getElem?_append_left hlt]
      · rw [List.getElem?_eq_none (by rw [List.length_append, List.length_singleton]; omega),
          List.getElem?_eq_none (by omega)]
  · rw [kept_succ, if_neg h, if_neg h, List.append_nil]

/-- A second scan finds the packed part, and behind it whatever would be kept there. -/
theorem kept_packed (st : Nat → α) (n : Nat) :
    kept keep (packed keep st n) n = kept keep st n ++
      ((List.range' (kept keep st n).length (n - (kept keep st n).length)).map st).filter
        keep := by
  have hback : (List.range' (kept keep st n).length (n - (kept keep st n).length)).map
      (packed keep st n)
      = (List.range' (kept keep st n).length (n - (kept keep st n).length)).map st :=
    List.map_congr_left fun i hi => packed_of_le (List.mem_range'_1.mp hi).1
  have hfront : kept keep (packed keep st n) (kept keep st n).length = kept keep st n := by
    rw [kept, map_packed, List.filter_eq_self]
    exact fun x hx => by simpa using keep_of_mem_kept hx
  rw [kept_split keep _ (length_kept_le keep st n), hfront, hback]

/-- Nothing is kept from cell `m` on. -/
theorem filter_range'_eq_nil_iff (st : Nat → α) (m n : Nat) :
    ((List.range' m (n - m)).map st).filter keep = [] ↔
      ∀ j, m ≤ j → j < n → ¬ keep (st j) := by
  rw [List.filter_eq_nil_iff]
  constructor
  · intro h j hj hn
    simpa using h (st j) (List.mem_map.mpr ⟨j, List.mem_range'_1.mpr ⟨hj, by omega⟩, rfl⟩)
  · intro h x hx
    obtain ⟨j, hj, rfl⟩ := List.mem_map.mp hx
    have hj := List.mem_range'_1.mp hj
    simpa using h j hj.1 (by omega)

/-- If nothing is kept behind as many cells as are kept, those cells are the kept ones. -/
theorem kept_eq_map {st : Nat → α} {n : Nat}
    (hback : ∀ j, (kept keep st n).length ≤ j → j < n → ¬ keep (st j)) :
    kept keep st n = (List.range (kept keep st n).length).map st := by
  have hfront := kept_split keep st (length_kept_le keep st n)
  rw [(filter_range'_eq_nil_iff keep st _ n).mpr hback, List.append_nil] at hfront
  have hself : ∀ x ∈ (List.range (kept keep st n).length).map st, decide (keep x) = true := by
    rw [← List.length_filter_eq_length_iff, List.length_map, List.length_range]
    exact (congrArg List.length hfront).symm
  conv_lhs => rw [hfront, kept, List.filter_eq_self.mpr hself]

/-- The kept cells are an initial segment exactly if none of them lies behind as many cells as
are kept. -/
theorem initial_iff (st : Nat → α) (n : Nat) :
    (∀ j < n, keep (st j) → ∀ i < j, keep (st i)) ↔
      ∀ j, (kept keep st n).length ≤ j → j < n → ¬ keep (st j) := by
  constructor
  · -- A kept cell `j` and all cells before it are `j + 1` kept cells.
    intro hinit j hj hn hkeep
    have hall : kept keep st (j + 1) = (List.range (j + 1)).map st := by
      rw [kept, List.filter_eq_self]
      intro x hx
      obtain ⟨i, hi, rfl⟩ := List.mem_map.mp hx
      have hij : i < j + 1 := List.mem_range.mp hi
      rcases Nat.lt_or_eq_of_le (Nat.le_of_lt_succ hij) with hlt | rfl
      · simpa using hinit j hn hkeep i hlt
      · simpa using hkeep
    have hlen := congrArg List.length (kept_split keep st (show j + 1 ≤ n from hn))
    rw [hall, List.length_append, List.length_map, List.length_range] at hlen
    omega
  · intro hback j hj hkeep i hij
    have hj' : j < (kept keep st n).length := by
      by_contra hge
      exact hback j (by omega) hj hkeep
    have hmem : st i ∈ kept keep st n := by
      rw [kept_eq_map keep hback]
      exact List.mem_map.mpr ⟨i, List.mem_range.mpr (by omega), rfl⟩
    exact keep_of_mem_kept hmem

/-- Packing an initial segment moves nothing. -/
theorem packed_eq_self {st : Nat → α} {n : Nat}
    (hinit : ∀ j < n, keep (st j) → ∀ i < j, keep (st i)) : packed keep st n = st := by
  funext i
  by_cases hi : i < (kept keep st n).length
  · have hget := kept_eq_map keep ((initial_iff keep st n).mp hinit)
    rw [packed, hget, List.getElem?_map, List.getElem?_range hi]
    rfl
  · exact packed_of_le (Nat.le_of_not_lt hi)

/-- A second scan keeps the same values exactly if the kept cells are an initial segment. -/
theorem kept_packed_eq_iff (st : Nat → α) (n : Nat) :
    kept keep (packed keep st n) n = kept keep st n ↔
      ∀ j < n, keep (st j) → ∀ i < j, keep (st i) := by
  rw [initial_iff, ← filter_range'_eq_nil_iff, kept_packed]
  exact List.append_right_eq_self

/-- Two lists of cells with the same values: `l` in scan order, `r` with distinct values that
do not occur outside of `l` by accident. -/
theorem map_eq_map_iff {ι β : Type} {lt : ι → ι → Prop} [Std.Asymm lt] {f : ι → β}
    {l r : List ι} (hl : l.Pairwise lt) (hr : r.Nodup)
    (hinj : ∀ i ∈ r, ∀ j ∈ r, f i = f j → i = j) (hsub : ∀ i ∈ r, f i ∈ l.map f → i ∈ l) :
    l.map f = r.map f ↔ (∀ i, i ∈ l ↔ i ∈ r) ∧ r.Pairwise lt := by
  have hlnd : l.Nodup := by
    refine List.Pairwise.imp ?_ hl
    rintro a b hab rfl
    exact Std.Asymm.asymm a a hab hab
  constructor
  · intro h
    have hrl : r ⊆ l := fun i hi => hsub i hi (h ▸ List.mem_map_of_mem hi)
    have hlen : l.length = r.length := by simpa using congrArg List.length h
    have hperm : r.Perm l := (hr.subperm hrl).perm_of_length_le (Nat.le_of_eq hlen)
    have heq : l = r := by
      refine List.ext_getElem hlen fun k hk hk' => ?_
      refine hinj _ (hperm.mem_iff.mpr (List.getElem_mem hk)) _ (List.getElem_mem hk') ?_
      have hget := List.getElem_of_eq h (show k < (l.map f).length by simpa using hk)
      rwa [List.getElem_map, List.getElem_map] at hget
    exact ⟨fun i => by rw [heq], heq ▸ hl⟩
  · rintro ⟨hmem, hsorted⟩
    have hperm : l.Perm r := (List.perm_ext_iff_of_nodup hlnd hr).mpr hmem
    rw [hperm.eq_of_pairwise (fun a b _ _ hab hba => absurd hba (Std.Asymm.asymm a b hab)) hl
      hsorted]

end NebulaX.Lib
