import Mathlib.Data.Nat.Digits.Lemmas

/-!
# `NebulaX.Lib.Decimal`: numbers in decimal text

Decimal text is a list of ASCII digits, the most significant one first. `decimal` writes a
number without leading zeros and `padded` with as many as the width needs; `value` reads a
text back. `padded_value` says that a text of digits is what its value is written as.
-/

set_option autoImplicit false

namespace NebulaX.Lib

/-- An ASCII digit. -/
def IsDigit (b : UInt8) : Prop := 48 ≤ b.toNat ∧ b.toNat ≤ 57

instance (b : UInt8) : Decidable (IsDigit b) := inferInstanceAs (Decidable (_ ∧ _))

/-- The number a text of digits stands for. -/
def value (t : List UInt8) : Nat := t.foldl (fun v b => 10 * v + (b.toNat - 48)) 0

/-- A number without leading zeros. -/
def decimal (n : Nat) : List UInt8 :=
  if n = 0 then [48] else (Nat.digits 10 n).reverse.map fun d => UInt8.ofNat (48 + d)

/-- A number with leading zeros up to a width. -/
def padded (w n : Nat) : List UInt8 := List.replicate (w - (decimal n).length) 48 ++ decimal n

/-- The digits of a text, the least significant one first. -/
private def digitsOf (t : List UInt8) : List Nat := t.reverse.map fun b => b.toNat - 48

private theorem value_eq (t : List UInt8) : value t = Nat.ofDigits 10 (digitsOf t) := by
  rw [value, Nat.ofDigits_eq_foldr, digitsOf, List.foldr_map, List.foldr_reverse]
  congr 1
  funext v b
  exact Nat.add_comm _ _

private theorem digitsOf_lt {t : List UInt8} (h : ∀ b ∈ t, IsDigit b) :
    ∀ d ∈ digitsOf t, d < 10 := by
  intro d hd
  obtain ⟨b, hb, rfl⟩ := List.mem_map.mp hd
  have := h b (List.mem_reverse.mp hb)
  unfold IsDigit at this
  omega

/-- A text is its digits, written again. -/
private theorem map_digitsOf {t : List UInt8} (h : ∀ b ∈ t, IsDigit b) :
    (digitsOf t).map (fun d => UInt8.ofNat (48 + d)) = t.reverse := by
  rw [digitsOf, List.map_map]
  refine (List.map_congr_left fun b hb => ?_).trans (List.map_id _)
  have hdigit := h b (List.mem_reverse.mp hb)
  unfold IsDigit at hdigit
  refine UInt8.toNat_inj.mp ?_
  rw [Function.comp_apply, UInt8.toNat_ofNat', Nat.mod_eq_of_lt (by omega), id]
  omega

theorem value_append (t u : List UInt8) : value (t ++ u) = 10 ^ u.length * value t + value u := by
  rw [value_eq, value_eq, value_eq, digitsOf, List.reverse_append, List.map_append,
    Nat.ofDigits_append, Nat.add_comm]
  simp [digitsOf]

/-- Leading zeros do not count. -/
theorem value_zeros_append (n : Nat) (t : List UInt8) :
    value (List.replicate n 48 ++ t) = value t := by
  have hz : value (List.replicate n 48) = 0 := by
    rw [value_eq, digitsOf, List.reverse_replicate, List.map_replicate]
    exact Nat.ofDigits_replicate_zero
  rw [value_append, hz, Nat.mul_zero, Nat.zero_add]

theorem value_lt {t : List UInt8} (h : ∀ b ∈ t, IsDigit b) : value t < 10 ^ t.length := by
  rw [value_eq]
  have := Nat.ofDigits_lt_base_pow_length (b := 10) (by decide) (digitsOf_lt h)
  simpa [digitsOf] using this

/-- Texts of the same length with the same value are the same. -/
theorem eq_of_value_eq {t u : List UInt8} (ht : ∀ b ∈ t, IsDigit b) (hu : ∀ b ∈ u, IsDigit b)
    (hlen : t.length = u.length) (h : value t = value u) : t = u := by
  rw [value_eq, value_eq] at h
  have hdigits : digitsOf t = digitsOf u :=
    Nat.ofDigits_inj_of_len_eq (by decide) (by simp [digitsOf, hlen]) (digitsOf_lt ht)
      (digitsOf_lt hu) h
  have hback := congrArg (List.map fun d => UInt8.ofNat (48 + d)) hdigits
  rw [map_digitsOf ht, map_digitsOf hu] at hback
  exact List.reverse_injective hback

/-! ### Numbers as text -/

theorem isDigit_decimal (n : Nat) : ∀ b ∈ decimal n, IsDigit b := by
  intro b hb
  unfold decimal at hb
  split at hb
  · rw [List.mem_singleton.mp hb]
    decide
  · obtain ⟨d, hd, rfl⟩ := List.mem_map.mp hb
    have := Nat.digits_lt_base (by decide) (List.mem_reverse.mp hd)
    rw [IsDigit, UInt8.toNat_ofNat', Nat.mod_eq_of_lt (by omega)]
    omega

theorem decimal_ne_nil (n : Nat) : decimal n ≠ [] := by
  unfold decimal
  split
  · exact List.cons_ne_nil _ _
  · rename_i hn
    simpa using Nat.digits_ne_nil_iff_ne_zero.mpr hn

@[simp] theorem value_decimal (n : Nat) : value (decimal n) = n := by
  unfold decimal
  split
  · rename_i hz
    rw [hz]
    rfl
  · rw [value_eq, digitsOf, ← List.map_reverse, List.reverse_reverse, List.map_map]
    have hsame : (Nat.digits 10 n).map ((fun b : UInt8 => b.toNat - 48) ∘ fun d =>
        UInt8.ofNat (48 + d)) = Nat.digits 10 n := by
      refine (List.map_congr_left fun d hd => ?_).trans (List.map_id _)
      have := Nat.digits_lt_base (by decide) hd
      rw [Function.comp_apply, UInt8.toNat_ofNat', Nat.mod_eq_of_lt (by omega), id]
      omega
    rw [hsame, Nat.ofDigits_digits]

theorem length_decimal_le {w n : Nat} (hw : 0 < w) (h : n < 10 ^ w) : (decimal n).length ≤ w := by
  unfold decimal
  split
  · exact hw
  · rw [List.length_map, List.length_reverse]
    exact (Nat.digits_length_le_iff (by decide) n).mpr h

theorem isDigit_padded (w n : Nat) : ∀ b ∈ padded w n, IsDigit b := by
  intro b hb
  rcases List.mem_append.mp hb with hb | hb
  · rw [List.eq_of_mem_replicate hb]
    decide
  · exact isDigit_decimal n b hb

theorem length_padded {w n : Nat} (hw : 0 < w) (h : n < 10 ^ w) : (padded w n).length = w := by
  have := length_decimal_le hw h
  rw [padded, List.length_append, List.length_replicate]
  omega

/-- A text of digits is its value, written with its width. -/
theorem padded_value {t : List UInt8} (hne : t ≠ []) (h : ∀ b ∈ t, IsDigit b) :
    padded t.length (value t) = t := by
  have hpos := List.length_pos_iff.mpr hne
  refine eq_of_value_eq (isDigit_padded _ _) h (length_padded hpos (value_lt h)) ?_
  rw [padded, value_zeros_append, value_decimal]

end NebulaX.Lib
