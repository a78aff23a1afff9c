import Mathlib.Algebra.BigOperators.Group.List.Basic
import Mathlib.Data.UInt

/-!
# `NebulaX.Lib.Cells`: a ring addressed by free-running counters

A ring of `n` cells. Element number `k` of the stream that goes through it lies in `cell n c k`,
where `c` is the counter of element 0. The counters are 64-bit numbers that wrap, so element
`k` has the counter `count c k`; when `n` is a power of two, masking a counter gives the cell.

`writeBlock` and `readBlock` copy a block of consecutive cells. In terms of elements a block
write changes the elements it holds and no other one within reach of it (`writeBlock_cell`).
-/

set_option autoImplicit false

namespace NebulaX.Lib

/-! ### Counters -/

/-- The counter of element `k`. -/
def count (c : UInt64) (k : Nat) : UInt64 := c + UInt64.ofNat k

/-- The cell of element `k`. -/
def cell (n : Nat) (c : UInt64) (k : Nat) : Nat := (c.toNat + k) % n

theorem count_zero (c : UInt64) : count c 0 = c := by simp [count]

theorem count_toNat (c : UInt64) (k : Nat) : (count c k).toNat = (c.toNat + k) % 2 ^ 64 := by
  rw [count, UInt64.toNat_add, UInt64.toNat_ofNat', Nat.add_mod_mod]

theorem count_add (c : UInt64) (k m : Nat) : count c k + UInt64.ofNat m = count c (k + m) := by
  rw [count, count, UInt64.add_assoc, UInt64.ofNat_add]

/-- The distance of two counters, wrapped or not. -/
theorem count_sub (c : UInt64) {a b : Nat} (hle : a ≤ b) (hlt : b - a < 2 ^ 64) :
    (count c b - count c a).toNat = b - a := by
  rw [UInt64.toNat_sub, count_toNat, count_toNat]
  omega

/-- Masking a counter gives the cell. -/
theorem count_mask (c : UInt64) (k : Nat) {N : UInt64} {j : Nat} (hN : N.toNat = 2 ^ j) :
    (count c k &&& (N - 1)).toNat = cell N.toNat c k := by
  have hpos := Nat.two_pow_pos j
  have hj : j ≤ 64 := by
    have hlt := N.toNat_lt
    rw [hN] at hlt
    exact Nat.le_of_lt ((Nat.pow_lt_pow_iff_right (by decide)).mp hlt)
  have hmask : (N - 1).toNat = 2 ^ j - 1 := by
    rw [UInt64.toNat_sub_of_le _ _ (by rw [UInt64.le_iff_toNat_le, hN]; exact hpos), hN]
    rfl
  rw [UInt64.toNat_and, hmask, Nat.and_two_pow_sub_one_eq_mod, count_toNat, cell, hN,
    Nat.mod_mod_of_dvd _ (Nat.pow_dvd_pow 2 hj)]

/-! ### Blocks -/

variable {α : Type} {n : Nat} {c : UInt64}

/-- Copy `d` to the cells from `pos` on. -/
def writeBlock (buf : Nat → α) (pos : Nat) (d : List α) : Nat → α :=
  fun i => if pos ≤ i ∧ i < pos + d.length then d.getD (i - pos) (buf i) else buf i

/-- The `m` cells from `pos` on. -/
def readBlock (buf : Nat → α) (pos m : Nat) : List α := (List.range m).map fun i => buf (pos + i)

theorem length_readBlock (buf : Nat → α) (pos m : Nat) : (readBlock buf pos m).length = m := by
  simp [readBlock]

/-- Elements less than a ring apart lie in different cells. -/
theorem cell_ne {a b : Nat} (hlt : a < b) (hn : b < a + n) : cell n c a ≠ cell n c b := by
  intro he
  have hd : n ∣ (c.toNat + b) - (c.toNat + a) :=
    Nat.dvd_of_mod_eq_zero (Nat.sub_mod_eq_zero_of_mod_eq he.symm)
  have := Nat.eq_zero_of_dvd_of_lt hd (by omega)
  omega

/-- Before the end of the ring the cells of consecutive elements are consecutive. -/
theorem cell_add {k i : Nat} (h : cell n c k + i < n) : cell n c (k + i) = cell n c k + i := by
  have hk : (c.toNat + k) % n + i < n := h
  rw [cell, cell, ← Nat.add_assoc, ← Nat.mod_add_mod, Nat.mod_eq_of_lt hk]

theorem cell_lt (hn : 0 < n) (k : Nat) : cell n c k < n := Nat.mod_lt _ hn

/-- At the end of the ring the next element lies in cell 0. -/
theorem cell_wrap (hn : 0 < n) (k : Nat) : cell n c (k + (n - cell n c k)) = 0 := by
  have hlt := cell_lt (c := c) hn k
  rw [cell, ← Nat.add_assoc, ← Nat.mod_add_mod, show (c.toNat + k) % n = cell n c k from rfl,
    show cell n c k + (n - cell n c k) = n by omega, Nat.mod_self]

/-- What a block write does to the elements within reach. -/
theorem writeBlock_cell {buf : Nat → α} {k i : Nat} {d : List α} (hfit : cell n c k + d.length ≤ n)
    (hlow : k + d.length ≤ i + n) (hhigh : i < k + n) :
    writeBlock buf (cell n c k) d (cell n c i) =
      if k ≤ i ∧ i < k + d.length then d.getD (i - k) (buf (cell n c i)) else buf (cell n c i) := by
  by_cases hin : k ≤ i ∧ i < k + d.length
  · have hcell : cell n c i = cell n c k + (i - k) := by
      have := cell_add (n := n) (c := c) (k := k) (i := i - k) (by omega)
      rwa [Nat.add_sub_cancel' hin.1] at this
    rw [if_pos hin, writeBlock, if_pos (by omega), hcell, Nat.add_sub_cancel_left]
  · rw [if_neg hin, writeBlock, if_neg]
    rintro ⟨hlo, hhi⟩
    -- the cell would be that of an element of the block as well
    have hcell : cell n c (k + (cell n c i - cell n c k)) = cell n c i := by
      rw [cell_add (by omega)]
      omega
    rcases Nat.lt_trichotomy (k + (cell n c i - cell n c k)) i with h | h | h
    · exact cell_ne h (by omega) hcell
    · omega
    · exact cell_ne h (by omega) hcell.symm

/-- A block read gives the elements of its cells. -/
theorem readBlock_cell {buf : Nat → α} {k m : Nat} (hfit : cell n c k + m ≤ n) :
    readBlock buf (cell n c k) m = (List.range m).map fun i => buf (cell n c (k + i)) := by
  refine List.map_congr_left fun i hi => ?_
  rw [cell_add]
  have := List.mem_range.mp hi
  omega

end NebulaX.Lib
