import NebulaX.Proofs.Ouch

/-!
# `NebulaX.Proofs.OuchFields`: numbers in the frames

What a client reads at the offsets of `ouch_protocol.h`. A price is written as `price * 100` in
32 bits: up to 42949672 the product fits, and the division gives the price back
(`carriesPrice_of_field`).
-/

set_option autoImplicit false

namespace NebulaX

open NebulaX.Lib

namespace Ouch

/-! ### Big-endian numbers -/

/-- A word from its four bytes. -/
theorem recombine_be32 (v : UInt32) :
    ((v >>> 24).toUInt8.toUInt32 <<< 24) ||| ((v >>> 16).toUInt8.toUInt32 <<< 16)
      ||| ((v >>> 8).toUInt8.toUInt32 <<< 8) ||| v.toUInt8.toUInt32 = v := by
  apply UInt32.toNat_inj.mp
  have hv := v.toNat_lt
  simp only [UInt32.toNat_or, UInt32.toNat_shiftLeft, UInt32.toNat_shiftRight,
    UInt32.toNat_toUInt8, UInt8.toNat_toUInt32, UInt32.reduceToNat, Nat.reduceMod, Nat.reducePow]
  have hlt : ∀ a k : Nat, k ≤ 24 → (a % 256) <<< k % 4294967296 = (a % 256) <<< k := by
    intro a k hk
    apply Nat.mod_eq_of_lt
    rw [Nat.shiftLeft_eq]
    have ha : a % 256 < 256 := Nat.mod_lt _ (by decide)
    calc a % 256 * 2 ^ k ≤ 255 * 2 ^ 24 :=
          Nat.mul_le_mul (by omega) (Nat.pow_le_pow_right (by decide) hk)
      _ < 4294967296 := by decide
  -- the four parts do not overlap, so `or` is addition
  rw [hlt _ _ (by decide), hlt _ _ (by decide), hlt _ _ (by decide), Nat.or_assoc, Nat.or_assoc,
    ← Nat.shiftLeft_add_eq_or_of_lt (i := 8) (by omega),
    ← Nat.shiftLeft_add_eq_or_of_lt (i := 16), ← Nat.shiftLeft_add_eq_or_of_lt (i := 24)]
  all_goals
    simp only [Nat.shiftLeft_eq, Nat.shiftRight_eq_div_pow, Nat.reducePow]
    omega

/-- A number is read back. -/
theorem rdU32_eq {buf : List UInt8} {len off : Nat} {v : UInt32}
    (h : Field buf len off (wrBe32 v)) : ItchParser.rdU32 buf off = v := by
  have h₀ := h.getD_eq (k := 0) (by simp [length_wrBe32]) 0
  have h₁ := h.getD_eq (k := 1) (by simp [length_wrBe32]) 0
  have h₂ := h.getD_eq (k := 2) (by simp [length_wrBe32]) 0
  have h₃ := h.getD_eq (k := 3) (by simp [length_wrBe32]) 0
  simp only [ItchParser.rdU32, ItchParser.byteAt]
  rw [show buf.getD off 0 = _ from h₀, h₁, h₂, h₃]
  exact recombine_be32 v

/-- The largest price whose hundredfold fits in 32 bits. -/
def maxPrice : UInt32 := 42949672

theorem div_le_maxPrice (v : UInt32) : v / 100 ≤ maxPrice := by
  have hv := v.toNat_lt
  rw [UInt32.le_iff_toNat_le, UInt32.toNat_div]
  change v.toNat / 100 ≤ 42949672
  omega

/-- The price field `off` of a frame carries `price`: the product is exact, and the division
gives the price back. -/
def CarriesPrice (r : List UInt8) (off : Nat) (price : UInt32) : Prop :=
  (ItchParser.rdU32 r off).toNat = price.toNat * 100 ∧ ItchParser.rdU32 r off / 100 = price

theorem carriesPrice_of_field {r : List UInt8} {len off : Nat} {price : UInt32}
    (hp : price ≤ maxPrice) (h : Field r len off (wrBe32 (price * 100))) :
    CarriesPrice r off price := by
  have hle : price.toNat ≤ 42949672 := UInt32.le_iff_toNat_le.mp hp
  have hmul : (price * 100).toNat = price.toNat * 100 := by
    rw [UInt32.toNat_mul]
    exact Nat.mod_eq_of_lt (by change price.toNat * 100 < 2 ^ 32; omega)
  rw [CarriesPrice, rdU32_eq h]
  refine ⟨hmul, UInt32.toNat_inj.mp ?_⟩
  rw [UInt32.toNat_div, hmul]
  change price.toNat * 100 / 100 = price.toNat
  omega

/-! ### The frames -/

section
variable (ref orderId : UInt64) (side : UInt8) (shares : UInt32)

/-- The type byte and the side of a frame about an order. -/
theorem fields_orderHead {len : Nat} (hlen : 24 ≤ len) (type : UInt8) :
    Field (orderHead len type ref orderId side) len 0 [type] ∧
    Field (orderHead len type ref orderId side) len 23 [side] := by
  have h := headed_orderHead len hlen type ref orderId side
  refine ⟨⟨h.length, by simp; omega, h.type⟩, ?_⟩
  obtain ⟨-, -, hlength⟩ := orderHead_fits len hlen type ref orderId
  exact Field.write hlength (by simp; omega)

theorem fields_accepted (symbolId : UInt64) :
    Field (encodeAccepted ref orderId side shares symbolId) 39 0 [kOuchMsgAck] := by
  have h := (fields_orderHead ref orderId side (show 24 ≤ 39 by decide) kOuchMsgAck).1
  have hbook := length_bookText symbolId
  refine ((h.keep ?_ ?_).keep ?_ ?_).keep ?_ ?_
  all_goals first | omega | simp [length_wrBe32, kOuchAckMsgLen]

theorem fields_rejected (reason : List UInt8) :
    Field (encodeRejected ref orderId side reason) 36 0 [kOuchMsgReject] := by
  have h := (fields_orderHead ref orderId side (show 24 ≤ 36 by decide) kOuchMsgReject).1
  refine (h.keep ?_ ?_).keep ?_ ?_
  all_goals simp [kOuchRejectMsgLen]
  omega

theorem fields_canceled (canceledQty : UInt32) (symbolId : UInt64) :
    Field (encodeCanceled ref orderId side canceledQty symbolId) 39 0 [kOuchMsgCancel] ∧
    Field (encodeCanceled ref orderId side canceledQty symbolId) 39 23 [side] ∧
    Field (encodeCanceled ref orderId side canceledQty symbolId) 39 24 (wrBe32 canceledQty) := by
  obtain ⟨htype, hside⟩ :=
    fields_orderHead ref orderId side (show 24 ≤ 39 by decide) kOuchMsgCancel
  have hbook := length_bookText symbolId
  refine ⟨((htype.keep ?_ ?_).keep ?_ ?_).keep ?_ ?_, ((hside.keep ?_ ?_).keep ?_ ?_).keep ?_ ?_,
    ((Field.write htype.length ?_).keep ?_ ?_).keep ?_ ?_⟩
  all_goals first | omega | simp [length_wrBe32, kOuchCancelMsgLen]

theorem fields_executed (priceCents : UInt64) (execQty : UInt32) (execPriceCents : UInt64) :
    Field (encodeExecuted ref orderId side shares priceCents execQty execPriceCents) 42 0
      [kOuchMsgExec] ∧
    Field (encodeExecuted ref orderId side shares priceCents execQty execPriceCents) 42 28
      (wrBe32 (priceCents * 100).toUInt32) ∧
    Field (encodeExecuted ref orderId side shares priceCents execQty execPriceCents) 42 32
      (wrBe32 execQty) ∧
    Field (encodeExecuted ref orderId side shares priceCents execQty execPriceCents) 42 36
      (wrBe32 (execPriceCents * 100).toUInt32) := by
  have htype := (fields_orderHead ref orderId side (show 24 ≤ 42 by decide) kOuchMsgExec).1
  have hshares : Field (writeAt (orderHead 42 kOuchMsgExec ref orderId side) 24 (wrBe32 shares)) 42
      0 [kOuchMsgExec] := htype.keep (by simp [length_wrBe32]) (by simp)
  have hprice : Field (writeAt (writeAt (orderHead 42 kOuchMsgExec ref orderId side) 24
      (wrBe32 shares)) 28 (wrBe32 (priceCents * 100).toUInt32)) 42 0 [kOuchMsgExec] :=
    hshares.keep (by simp [length_wrBe32]) (by simp)
  have hqty : Field (writeAt (writeAt (writeAt (orderHead 42 kOuchMsgExec ref orderId side) 24
      (wrBe32 shares)) 28 (wrBe32 (priceCents * 100).toUInt32)) 32 (wrBe32 execQty)) 42 0
      [kOuchMsgExec] := hprice.keep (by simp [length_wrBe32]) (by simp)
  refine ⟨((hqty.keep ?_ ?_).keep ?_ ?_).keep ?_ ?_,
    ((((Field.write hshares.length ?_).keep ?_ ?_).keep ?_ ?_).keep ?_ ?_).keep ?_ ?_,
    (((Field.write hprice.length ?_).keep ?_ ?_).keep ?_ ?_).keep ?_ ?_,
    ((Field.write hqty.length ?_).keep ?_ ?_).keep ?_ ?_⟩
  all_goals simp [length_wrBe32, kOuchExecMsgLen]

end

/-- The type byte and the prices of a book message. -/
theorem fields_book (locate : UInt64) (bidPriceCents bidVol askPriceCents askVol : UInt32) :
    Field (encodeBook locate bidPriceCents bidVol askPriceCents askVol) 34 0 [kOuchMsgBook] ∧
    Field (encodeBook locate bidPriceCents bidVol askPriceCents askVol) 34 11
      (wrBe32 (bidPriceCents * 100)) ∧
    Field (encodeBook locate bidPriceCents bidVol askPriceCents askVol) 34 19
      (wrBe32 (askPriceCents * 100)) := by
  have hbook := length_bookText locate
  obtain ⟨buf, hbuf⟩ : ∃ buf, buf = writeAt (writeAt (List.replicate 34 32) 0 [kOuchMsgBook]) 1
    (bookText locate) := ⟨_, rfl⟩
  have htype : Field buf 34 0 [kOuchMsgBook] := by
    rw [hbuf]
    refine (Field.write (by simp) (by simp)).keep ?_ (Or.inl (by simp))
    omega
  have hlen := htype.length
  have hbid : Field (writeAt buf 11 (wrBe32 (bidPriceCents * 100))) 34 11
      (wrBe32 (bidPriceCents * 100)) := Field.write hlen (by simp [length_wrBe32])
  have hvol : Field (writeAt (writeAt buf 11 (wrBe32 (bidPriceCents * 100))) 15 (wrBe32 bidVol)) 34
      11 (wrBe32 (bidPriceCents * 100)) :=
    hbid.keep (by simp [length_wrBe32]) (by simp [length_wrBe32])
  rw [encodeBook, kOuchBookMsgLen, ← hbuf]
  refine ⟨((((htype.keep ?_ ?_).keep ?_ ?_).keep ?_ ?_).keep ?_ ?_).keep ?_ ?_,
    ((hvol.keep ?_ ?_).keep ?_ ?_).keep ?_ ?_,
    ((Field.write hvol.length ?_).keep ?_ ?_).keep ?_ ?_⟩
  all_goals simp [length_wrBe32]

end Ouch

end NebulaX
