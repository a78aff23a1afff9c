import Mathlib.Data.List.Induction
import Mathlib.Logic.Function.Basic

/-!
# `NebulaX.Lib.Ring`: a ring of slots that is written in turn

`Ring.write w f pos xs` writes `xs` into a ring of `w` slots, from `pos` on and around. `f` is
what the slots held before.

* `write_slot`: what a slot holds after a write that starts at slot 0. It is the last entry
  whose place is the slot, or what was there before.
* `write_recent`: the newest entries stand where they were written.
* `map_write_of_le` and `map_write_of_dvd`: the slots in their order, when nothing was
  overwritten and when the write ends where it began.
-/

set_option autoImplicit false

namespace NebulaX.Lib.Ring

variable {α : Type} {w pos : Nat}

/-- Write a list into a ring of `w` slots, from `pos` on. -/
def write (w : Nat) : (Nat → α) → Nat → List α → Nat → α
  | f, _, [] => f
  | f, pos, x :: xs => write w (Function.update f (pos % w) x) (pos + 1) xs

theorem write_snoc (f : Nat → α) (xs : List α) (x : α) :
    write w f pos (xs ++ [x]) = Function.update (write w f pos xs) ((pos + xs.length) % w) x := by
  induction xs generalizing f pos with
  | nil => rfl
  | cons y ys ih =>
      rw [List.cons_append, write, ih, write, List.length_cons, Nat.add_assoc, Nat.add_comm 1]

/-- The last place before `n` that is the slot `i`: one more entry moves it only for the slot
that is written. -/
theorem div_pred_of_ne {n i : Nat} (hi : i < n) (hne : i ≠ n % w) (hw : i < w) :
    (n - i) / w = (n - 1 - i) / w := by
  have hmod : (n - i) % w ≠ 0 := by
    intro h0
    obtain ⟨k, hk⟩ := Nat.dvd_of_mod_eq_zero h0
    have hn : n = i + w * k := by omega
    exact hne (by rw [hn, Nat.add_mul_mod_self_left, Nat.mod_eq_of_lt hw])
  have hpos : 0 < w := by omega
  refine (Nat.div_eq_of_lt_le ?_ ?_).symm
  · have := Nat.div_add_mod (n - i) w
    have := Nat.mul_comm w ((n - i) / w)
    omega
  · have := Nat.lt_div_mul_add hpos (a := n - i)
    rw [Nat.add_mul]
    omega

/-- The newest `w` entries stand in their slots. -/
theorem write_recent (f : Nat → α) (xs : List α) {k : Nat} (hk : k < xs.length)
    (hw : xs.length ≤ k + w) : write w f 0 xs (k % w) = xs[k] := by
  induction xs using List.reverseRecOn with
  | nil => simp at hk
  | append_singleton xs x ih =>
      rw [List.length_append, List.length_singleton] at hk hw
      rw [write_snoc, Nat.zero_add]
      rcases Nat.lt_or_eq_of_le (Nat.le_of_lt_succ hk) with hlt | rfl
      · -- Between two entries of one slot lie `w` entries or more.
        have hne : k % w ≠ xs.length % w := by
          intro heq
          have hzero := Nat.sub_mod_eq_zero_of_mod_eq heq.symm
          rw [Nat.mod_eq_of_lt (by omega)] at hzero
          omega
        rw [Function.update_of_ne hne, ih hlt (by omega), List.getElem_append_left hlt]
      · rw [Function.update_self]
        simp

/-- What a slot holds after a write that starts at slot 0. -/
theorem write_slot (f : Nat → α) (hpos : pos % w = 0) (xs : List α) {i : Nat} (hi : i < w) :
    write w f pos xs i = xs.getD (i + (xs.length - 1 - i) / w * w) (f i) := by
  induction xs using List.reverseRecOn with
  | nil => simp [write]
  | append_singleton xs x ih =>
      have hplace : (pos + xs.length) % w = xs.length % w := by
        rw [Nat.add_mod, hpos, Nat.zero_add, Nat.mod_mod]
      rw [write_snoc, hplace, List.length_append, List.length_singleton, Nat.add_sub_cancel]
      by_cases hwritten : i = xs.length % w
      · -- The slot is the one that is written now.
        have hlast : i + (xs.length - i) / w * w = xs.length := by
          have := Nat.div_add_mod xs.length w
          have hsub : xs.length - i = w * (xs.length / w) := by omega
          rw [hsub, Nat.mul_div_cancel_left _ (by omega), Nat.mul_comm]
          omega
        rw [hwritten, Function.update_self, ← hwritten, hlast]
        simp
      · rw [Function.update_of_ne hwritten, ih]
        rcases Nat.lt_trichotomy i xs.length with hlt | heq | hgt
        · rw [div_pred_of_ne hlt hwritten hi]
          have hbound : i + (xs.length - 1 - i) / w * w < xs.length := by
            have := Nat.div_mul_le_self (xs.length - 1 - i) w
            omega
          simp [List.getD, List.getElem?_append_left hbound]
        · exact absurd (by rw [← heq, Nat.mod_eq_of_lt hi]) hwritten
        · have h₁ : xs.length - 1 - i = 0 := by omega
          have h₂ : xs.length - i = 0 := by omega
          rw [h₁, h₂, Nat.zero_div, Nat.zero_mul, Nat.add_zero, List.getD, List.getD,
            List.getElem?_eq_none (by omega),
            List.getElem?_eq_none (by rw [List.length_append, List.length_singleton]; omega)]

/-- A write that fits: the entries in their order, and behind them what was there before. -/
theorem map_write_of_le (f : Nat → α) (hpos : pos % w = 0) {xs : List α} (hle : xs.length ≤ w) :
    (List.range w).map (write w f pos xs)
      = xs ++ (List.range' xs.length (w - xs.length)).map f := by
  refine List.ext_getElem (by simp; omega) fun i h₁ h₂ => ?_
  have hi : i < w := by simpa using h₁
  rw [List.getElem_map, List.getElem_range, write_slot f hpos xs hi,
    Nat.div_eq_of_lt (show xs.length - 1 - i < w by omega), Nat.zero_mul, Nat.add_zero]
  rcases Nat.lt_or_ge i xs.length with hlt | hge
  · rw [List.getElem_append_left hlt]
    simp [List.getD, hlt]
  · rw [List.getElem_append_right hge, List.getElem_map, List.getElem_range', List.getD,
      List.getElem?_eq_none hge]
    simp only [Option.getD_none]
    congr 1
    omega

/-- A write that ends where it began: the last `w` entries in their order. -/
theorem map_write_of_dvd (f : Nat → α) (hpos : pos % w = 0) {xs : List α} (hxs : xs ≠ [])
    (hdvd : w ∣ xs.length) :
    (List.range w).map (write w f pos xs) = xs.drop (xs.length - w) := by
  obtain ⟨k, hk⟩ := hdvd
  have hlen := List.length_pos_iff.mpr hxs
  obtain ⟨m, rfl⟩ : ∃ m, k = m + 1 := Nat.exists_eq_succ_of_ne_zero (by
    rintro rfl
    omega)
  rw [Nat.mul_add, Nat.mul_one] at hk
  refine List.ext_getElem (by simp; omega) fun i h₁ h₂ => ?_
  have hi : i < w := by simpa using h₁
  have hdiv : (xs.length - 1 - i) / w = m := by
    refine Nat.div_eq_of_lt_le ?_ ?_
    · rw [Nat.mul_comm]
      omega
    · rw [Nat.add_mul, Nat.mul_comm m]
      omega
  rw [List.getElem_map, List.getElem_range, write_slot f hpos xs hi, hdiv, List.getElem_drop,
    List.getD, List.getElem?_eq_getElem (by rw [Nat.mul_comm]; omega), Option.getD_some]
  congr 1
  rw [Nat.mul_comm]
  omega

end NebulaX.Lib.Ring
