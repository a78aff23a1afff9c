import Mathlib.Algebra.BigOperators.Group.List.Basic
import Mathlib.Data.UInt

/-!
# `NebulaX.Lib.Bytes`: records in a buffer

`writeAt buf off bytes` overwrites a part of a buffer and `slice buf off n` reads one. A read
sees the write at its place (`slice_writeAt`) and no write elsewhere
(`slice_writeAt_of_disjoint`). `Field` is a field of a record that is written piece by piece.
`leBytes` and `ofLe` are numbers in little-endian order.
-/

set_option autoImplicit false

namespace NebulaX.Lib

variable {α : Type}

/-- Overwrite the elements from `off` on. -/
def writeAt (buf : List α) (off : Nat) (bytes : List α) : List α :=
  buf.take off ++ bytes ++ buf.drop (off + bytes.length)

/-- The `n` elements from `off` on. -/
def slice (buf : List α) (off n : Nat) : List α := (buf.drop off).take n

theorem length_writeAt {buf : List α} {off : Nat} {bytes : List α}
    (h : off + bytes.length ≤ buf.length) : (writeAt buf off bytes).length = buf.length := by
  simp only [writeAt, List.length_append, List.length_take, List.length_drop]
  omega

/-- Read what was written, or the start of it. -/
theorem slice_writeAt {buf : List α} {off n : Nat} {bytes : List α} (hoff : off ≤ buf.length)
    (hn : n ≤ bytes.length) : slice (writeAt buf off bytes) off n = bytes.take n := by
  have hlen : (buf.take off).length = off := by
    rw [List.length_take]
    omega
  rw [slice, writeAt, List.append_assoc, List.drop_append, hlen, Nat.sub_self, List.drop_zero,
    List.drop_of_length_le (by omega), List.nil_append, List.take_append_of_le_length hn]

/-- Read what was written and what follows it. -/
theorem slice_writeAt_append {buf : List α} {off n : Nat} {bytes : List α} (hoff : off ≤ buf.length)
    (hn : bytes.length ≤ n) : slice (writeAt buf off bytes) off n
      = bytes ++ slice buf (off + bytes.length) (n - bytes.length) := by
  have hlen : (buf.take off).length = off := by
    rw [List.length_take]
    omega
  rw [slice, writeAt, List.append_assoc, List.drop_append, hlen, Nat.sub_self, List.drop_zero,
    List.drop_of_length_le (by omega), List.nil_append, List.take_append,
    List.take_of_length_le hn]
  rfl

theorem slice_replicate {len off n : Nat} (x : α) (h : off + n ≤ len) :
    slice (List.replicate len x) off n = List.replicate n x := by
  rw [slice, List.drop_replicate, List.take_replicate]
  congr 1
  omega

/-- Read what was not written. -/
theorem slice_writeAt_of_disjoint {buf : List α} {off off' n : Nat} {bytes : List α}
    (hfit : off + bytes.length ≤ buf.length)
    (h : off' + n ≤ off ∨ off + bytes.length ≤ off') :
    slice (writeAt buf off bytes) off' n = slice buf off' n := by
  refine List.ext_getElem? fun i => ?_
  simp only [slice, writeAt, List.getElem?_take, List.getElem?_drop]
  split
  · rcases h with h | h
    · rw [List.append_assoc, List.getElem?_append_left (by rw [List.length_take]; omega),
        List.getElem?_take, if_pos (by omega)]
    · rw [List.getElem?_append_right (by simp only [List.length_append, List.length_take]; omega),
        List.getElem?_drop]
      congr 1
      simp only [List.length_append, List.length_take]
      omega
  · rfl

/-- The buffer is a record of `len` elements with `bytes` at `off`. -/
structure Field (buf : List α) (len off : Nat) (bytes : List α) : Prop where
  length : buf.length = len
  fits : off + bytes.length ≤ len
  read : slice buf off bytes.length = bytes

namespace Field

variable {buf bytes : List α} {len off : Nat}

/-- A field that has just been written. -/
theorem write (hlen : buf.length = len) (hfit : off + bytes.length ≤ len) :
    Field (writeAt buf off bytes) len off bytes where
  length := (length_writeAt (by omega)).trans hlen
  fits := hfit
  read := by rw [slice_writeAt (by omega) (Nat.le_refl _), List.take_length]

/-- A field that another write passes by. -/
theorem keep (h : Field buf len off bytes) {off' : Nat} {bytes' : List α}
    (hfit : off' + bytes'.length ≤ len)
    (hdis : off + bytes.length ≤ off' ∨ off' + bytes'.length ≤ off) :
    Field (writeAt buf off' bytes') len off bytes where
  length := (length_writeAt (by rw [h.length]; exact hfit)).trans h.length
  fits := h.fits
  read := by rw [slice_writeAt_of_disjoint (by rw [h.length]; exact hfit) hdis, h.read]

/-- One element of a field. -/
theorem getD_eq (h : Field buf len off bytes) {k : Nat} (hk : k < bytes.length) (d : α) :
    buf.getD (off + k) d = bytes.getD k d := by
  conv_rhs => rw [← h.read]
  rw [List.getD_eq_getElem?_getD, List.getD_eq_getElem?_getD, slice, List.getElem?_take_of_lt hk,
    List.getElem?_drop]

end Field


/-- A number is given by its bytes. -/
theorem eq_of_bytes_eq {k n m : Nat} (hn : n < 256 ^ k) (hm : m < 256 ^ k)
    (h : ∀ i < k, n / 256 ^ i % 256 = m / 256 ^ i % 256) : n = m := by
  induction k generalizing n m with
  | zero => omega
  | succ k ih =>
      have hlow : n % 256 = m % 256 := by simpa using h 0 (by omega)
      have hhigh : n / 256 = m / 256 := by
        rw [Nat.pow_succ] at hn hm
        refine ih (by omega) (by omega) fun i hi => ?_
        have hi := h (i + 1) (by omega)
        rwa [Nat.pow_succ, Nat.mul_comm, ← Nat.div_div_eq_div_mul, ← Nat.div_div_eq_div_mul] at hi
      omega

/-- The low `k` bytes of a number, the lowest first. -/
def leBytes : Nat → Nat → List UInt8
  | 0, _ => []
  | k + 1, n => UInt8.ofNat (n % 256) :: leBytes k (n / 256)

/-- The number that bytes give, the lowest first. -/
def ofLe : List UInt8 → Nat
  | [] => 0
  | b :: bs => b.toNat + 256 * ofLe bs

@[simp] theorem length_leBytes (k n : Nat) : (leBytes k n).length = k := by
  induction k generalizing n with
  | zero => rfl
  | succ k ih => rw [leBytes, List.length_cons, ih]

theorem ofLe_leBytes {k n : Nat} (h : n < 256 ^ k) : ofLe (leBytes k n) = n := by
  induction k generalizing n with
  | zero => exact (Nat.lt_one_iff.mp h).symm
  | succ k ih =>
      rw [Nat.pow_succ] at h
      have hbyte : (UInt8.ofNat (n % 256)).toNat = n % 256 :=
        UInt8.toNat_ofNat_of_lt (Nat.mod_lt n (by decide))
      rw [leBytes, ofLe, ih (by omega), hbyte]
      omega

end NebulaX.Lib
