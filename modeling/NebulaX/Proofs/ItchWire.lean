import Mathlib.Data.List.DropRight
import NebulaX.Proofs.OuchFields

/-!
# `NebulaX.Proofs.ItchWire`: messages on the wire

What `ItchParser::feed` makes of the bytes of a message.

* `feedChecked` is `feed` with every access checked. `feedChecked_eq` says that no check
  fails, so `feed` reads nothing behind the message.
* `encode` lays out a message as the encoders of `test_correctness.cpp` do, with any bytes in
  the fields the parser skips. `feed_encode` is the round trip, `feed_take_encode` a message
  that was cut off.
* `symbolMap_feedAll` is the symbol map after any messages: the last directory message of a
  symbol decides.
-/

set_option autoImplicit false

namespace NebulaX

open NebulaX.Lib

namespace ItchParser

/-! ### Checked reads -/

/-- `rd_u16` with checked accesses. -/
def checkedU16 (m : List UInt8) (i : Nat) : Option UInt16 := do
  let b₀ ← m[i]?
  let b₁ ← m[i + 1]?
  return (b₀.toUInt16 <<< 8) ||| b₁.toUInt16

/-- `rd_u32` with checked accesses. -/
def checkedU32 (m : List UInt8) (i : Nat) : Option UInt32 := do
  let b₀ ← m[i]?
  let b₁ ← m[i + 1]?
  let b₂ ← m[i + 2]?
  let b₃ ← m[i + 3]?
  return (b₀.toUInt32 <<< 24) ||| (b₁.toUInt32 <<< 16) ||| (b₂.toUInt32 <<< 8) ||| b₃.toUInt32

/-- `rd_u64` with checked accesses. -/
def checkedU64 (m : List UInt8) (i : Nat) : Option UInt64 :=
  (List.range 8).foldlM (fun v k => do
    let b ← m[i + k]?
    return (v <<< 8) ||| b.toUInt64) 0

/-- The loop over the symbol of a directory message with checked accesses. -/
def checkedSymbol (m : List UInt8) : Option (List UInt8) := do
  let sym ← (List.range 8).mapM fun i => m[11 + i]?
  return ((sym.takeWhile (· ≠ 0)).reverse.dropWhile (· = 32)).reverse

/-- `ItchParser::feed` with checked accesses: `none` when one of them is out of range. -/
def feedChecked (p : ItchParser) (m : List UInt8) : Option (ItchParser × Option ItchEvent) :=
  if m.length < 3 then some (p, none)
  else do
    let mt ← m[0]?
    if mt = 82 then
      if m.length < 19 then return (p, none)
      else
        let loc ← checkedU16 m 1
        let sym ← checkedSymbol m
        if sym = [] then return (p, none)
        else return ({ symbolMap := Function.update p.symbolMap sym (some loc) }, none)
    else if mt = 65 ∨ mt = 70 then
      if m.length < 36 then return (p, none)
      else
        let locate ← checkedU16 m 1
        let orderRef ← checkedU64 m 11
        let side ← m[19]?
        let shares ← checkedU32 m 20
        let price ← checkedU32 m 32
        return (p, some (.add locate orderRef (if side = 83 then .sell else .buy) shares
          (itchToCents price)))
    else if mt = 68 then
      if m.length < 19 then return (p, none)
      else
        let locate ← checkedU16 m 1
        let orderRef ← checkedU64 m 11
        return (p, some (.delete locate orderRef))
    else if mt = 88 then
      if m.length < 23 then return (p, none)
      else
        let locate ← checkedU16 m 1
        let orderRef ← checkedU64 m 11
        let shares ← checkedU32 m 19
        return (p, some (.cancel locate orderRef shares))
    else if mt = 85 then
      if m.length < 35 then return (p, none)
      else
        let locate ← checkedU16 m 1
        let orderRef ← checkedU64 m 11
        let newOrderRef ← checkedU64 m 19
        let shares ← checkedU32 m 27
        let price ← checkedU32 m 31
        return (p, some (.replace locate orderRef newOrderRef shares (itchToCents price)))
    else if mt = 81 then do
      let locate ← checkedU16 m 1
      return (p, some (.book locate))
    else return (p, none)

section
variable {m : List UInt8} {i : Nat}

theorem getElem?_eq_byteAt (h : i < m.length) : m[i]? = some (byteAt m i) := by
  rw [byteAt, List.getD_eq_getElem?_getD, List.getElem?_eq_getElem h, Option.getD_some]

theorem checkedU16_eq (h : i + 2 ≤ m.length) : checkedU16 m i = some (rdU16 m i) := by
  rw [checkedU16, getElem?_eq_byteAt (by omega), getElem?_eq_byteAt (by omega)]
  rfl

theorem checkedU32_eq (h : i + 4 ≤ m.length) : checkedU32 m i = some (rdU32 m i) := by
  rw [checkedU32, getElem?_eq_byteAt (by omega), getElem?_eq_byteAt (by omega),
    getElem?_eq_byteAt (by omega), getElem?_eq_byteAt (by omega)]
  rfl

theorem checkedU64_eq (h : i + 8 ≤ m.length) : checkedU64 m i = some (rdU64 m i) := by
  -- A loop over `ks` whose accesses are in range is the loop without the checks.
  have hloop : ∀ (ks : List Nat), (∀ k ∈ ks, i + k < m.length) → ∀ v : UInt64,
      ks.foldlM (fun (v : UInt64) k => do
        let b ← m[i + k]?
        return ((v <<< 8) ||| b.toUInt64 : UInt64)) v
      = some (ks.foldl (fun (v : UInt64) k => (v <<< 8) ||| (byteAt m (i + k)).toUInt64) v) := by
    intro ks
    induction ks with
    | nil =>
        intro _ v
        rfl
    | cons k ks ih =>
        intro hks v
        rw [List.foldlM_cons, getElem?_eq_byteAt (hks k List.mem_cons_self)]
        exact ih (fun k' hk' => hks k' (List.mem_cons_of_mem _ hk')) _
  exact hloop _ (fun k hk => by rw [List.mem_range] at hk; omega) 0

theorem checkedSymbol_eq (h : 19 ≤ m.length) : checkedSymbol m = some (symbolOf m) := by
  have hloop : ∀ (ks : List Nat), (∀ k ∈ ks, 11 + k < m.length) →
      ks.mapM (fun i => m[11 + i]?) = some (ks.map fun i => byteAt m (11 + i)) := by
    intro ks
    induction ks with
    | nil =>
        intro _
        rfl
    | cons k ks ih =>
        intro hks
        rw [List.mapM_cons, getElem?_eq_byteAt (hks k List.mem_cons_self),
          ih fun k' hk' => hks k' (List.mem_cons_of_mem _ hk')]
        rfl
  rw [checkedSymbol, hloop _ fun k hk => by rw [List.mem_range] at hk; omega]
  rfl

end

/-- `feed` reads only bytes of its message. -/
theorem feedChecked_eq (p : ItchParser) (m : List UInt8) : feedChecked p m = some (p.feed m) := by
  rw [feedChecked, feed]
  by_cases h3 : m.length < 3
  · rw [if_pos h3, if_pos h3]
  · rw [if_neg h3, if_neg h3, getElem?_eq_byteAt (by omega)]
    simp only [Option.bind_eq_bind, Option.bind_some]
    -- Type by type: the guard covers the last byte that is read.
    by_cases hR : byteAt m 0 = 82
    · rw [if_pos hR, if_pos hR]
      by_cases hlen : m.length < 19
      · rw [if_pos hlen, if_pos hlen]
        rfl
      · rw [if_neg hlen, if_neg hlen, checkedU16_eq (by omega), checkedSymbol_eq (by omega)]
        simp only [Option.bind_some]
        by_cases hsym : symbolOf m = []
        · rw [if_pos hsym, if_pos hsym]
          rfl
        · rw [if_neg hsym, if_neg hsym]
          rfl
    · rw [if_neg hR, if_neg hR]
      by_cases hA : byteAt m 0 = 65 ∨ byteAt m 0 = 70
      · rw [if_pos hA, if_pos hA]
        by_cases hlen : m.length < 36
        · rw [if_pos hlen, if_pos hlen]
          rfl
        · rw [if_neg hlen, if_neg hlen, checkedU16_eq (by omega), checkedU64_eq (by omega),
            getElem?_eq_byteAt (by omega), checkedU32_eq (by omega), checkedU32_eq (by omega)]
          rfl
      · rw [if_neg hA, if_neg hA]
        by_cases hD : byteAt m 0 = 68
        · rw [if_pos hD, if_pos hD]
          by_cases hlen : m.length < 19
          · rw [if_pos hlen, if_pos hlen]
            rfl
          · rw [if_neg hlen, if_neg hlen, checkedU16_eq (by omega), checkedU64_eq (by omega)]
            rfl
        · rw [if_neg hD, if_neg hD]
          by_cases hX : byteAt m 0 = 88
          · rw [if_pos hX, if_pos hX]
            by_cases hlen : m.length < 23
            · rw [if_pos hlen, if_pos hlen]
              rfl
            · rw [if_neg hlen, if_neg hlen, checkedU16_eq (by omega), checkedU64_eq (by omega),
                checkedU32_eq (by omega)]
              rfl
          · rw [if_neg hX, if_neg hX]
            by_cases hU : byteAt m 0 = 85
            · rw [if_pos hU, if_pos hU]
              by_cases hlen : m.length < 35
              · rw [if_pos hlen, if_pos hlen]
                rfl
              · rw [if_neg hlen, if_neg hlen, checkedU16_eq (by omega), checkedU64_eq (by omega),
                  checkedU64_eq (by omega), checkedU32_eq (by omega), checkedU32_eq (by omega)]
                rfl
            · rw [if_neg hU, if_neg hU, checkedU16_eq (by omega)]
              split
              · rfl
              · rfl

/-! ### Fields behind a prefix -/

/-- A list that stands behind a prefix, byte by byte. -/
theorem byteAt_behind {m : List UInt8} (pre bytes : List UInt8) (hm : pre ++ bytes <+: m)
    {i k : Nat} (h : pre.length = i) (hk : k < bytes.length) : byteAt m (i + k) = bytes[k] := by
  obtain ⟨post, rfl⟩ := hm
  subst h
  rw [byteAt, List.append_assoc, List.getD_eq_getElem?_getD,
    List.getElem?_append_right (by omega), Nat.add_sub_cancel_left, List.getElem?_append_left hk,
    List.getElem?_eq_getElem hk, Option.getD_some]

/-- `putU16BE` of the encoders. -/
def putU16BE (v : UInt16) : List UInt8 := [(v >>> 8).toUInt8, v.toUInt8]

/-- A short from its two bytes. -/
theorem recombine_be16 (v : UInt16) :
    ((v >>> 8).toUInt8.toUInt16 <<< 8) ||| v.toUInt8.toUInt16 = v := by
  apply UInt16.toNat_inj.mp
  have hv := v.toNat_lt
  simp only [UInt16.toNat_or, UInt16.toNat_shiftLeft, UInt16.toNat_shiftRight,
    UInt16.toNat_toUInt8, UInt8.toNat_toUInt16, UInt16.reduceToNat, Nat.reduceMod, Nat.reducePow]
  have hhigh : (v.toNat >>> 8 % 256) <<< 8 % 65536 = (v.toNat >>> 8 % 256) <<< 8 := by
    rw [Nat.shiftLeft_eq]
    omega
  rw [hhigh, ← Nat.shiftLeft_add_eq_or_of_lt (i := 8) (by omega)]
  simp only [Nat.shiftLeft_eq, Nat.shiftRight_eq_div_pow, Nat.reducePow]
  omega

theorem rdU16_behind {m : List UInt8} (pre : List UInt8) {v : UInt16}
    (hm : pre ++ putU16BE v <+: m) {i : Nat} (h : pre.length = i) : rdU16 m i = v := by
  have h₀ := byteAt_behind pre _ hm h (k := 0) (by simp [putU16BE])
  have h₁ := byteAt_behind pre _ hm h (k := 1) (by simp [putU16BE])
  rw [Nat.add_zero] at h₀
  rw [rdU16, h₀, h₁]
  exact recombine_be16 v

theorem rdU32_behind {m : List UInt8} (pre : List UInt8) {v : UInt32}
    (hm : pre ++ Ouch.wrBe32 v <+: m) {i : Nat} (h : pre.length = i) : rdU32 m i = v := by
  have h₀ := byteAt_behind pre _ hm h (k := 0) (by simp [Ouch.length_wrBe32])
  have h₁ := byteAt_behind pre _ hm h (k := 1) (by simp [Ouch.length_wrBe32])
  have h₂ := byteAt_behind pre _ hm h (k := 2) (by simp [Ouch.length_wrBe32])
  have h₃ := byteAt_behind pre _ hm h (k := 3) (by simp [Ouch.length_wrBe32])
  rw [Nat.add_zero] at h₀
  rw [rdU32, h₀, h₁, h₂, h₃]
  exact Ouch.recombine_be32 v

/-- One byte more at the low end. -/
theorem toNat_shift_or (v : UInt64) (b : UInt8) (hv : v.toNat < 2 ^ 56) :
    ((v <<< 8) ||| b.toUInt64).toNat = v.toNat * 256 + b.toNat := by
  have hb := b.toNat_lt
  rw [UInt64.toNat_or, UInt64.toNat_shiftLeft, UInt8.toNat_toUInt64]
  have hshift : v.toNat <<< ((8 : UInt64).toNat % 64) % 2 ^ 64 = v.toNat <<< 8 := by
    change v.toNat <<< 8 % 2 ^ 64 = _
    rw [Nat.shiftLeft_eq]
    omega
  rw [hshift, ← Nat.shiftLeft_add_eq_or_of_lt (i := 8) (by omega), Nat.shiftLeft_eq]

/-- The loop of `rd_u64`, while the number fits. -/
theorem toNat_foldl_be (bs : List UInt8) (v : UInt64)
    (hv : (v.toNat + 1) * 256 ^ bs.length ≤ 2 ^ 64) :
    (bs.foldl (fun (v : UInt64) b => (v <<< 8) ||| b.toUInt64) v).toNat
      = bs.foldl (fun n b => n * 256 + b.toNat) v.toNat := by
  induction bs generalizing v with
  | nil => rfl
  | cons b bs ih =>
      have hb := b.toNat_lt
      rw [List.length_cons, Nat.pow_succ'] at hv
      have hpos : 0 < 256 ^ bs.length := Nat.pow_pos (by decide)
      have hsmall : v.toNat < 2 ^ 56 := by
        have hle : (v.toNat + 1) * 256 ≤ (v.toNat + 1) * (256 * 256 ^ bs.length) :=
          Nat.mul_le_mul_left _ (Nat.le_mul_of_pos_right _ hpos)
        omega
      have hstep := toNat_shift_or v b hsmall
      rw [List.foldl_cons, List.foldl_cons, ← hstep]
      refine ih _ ?_
      rw [hstep]
      calc (v.toNat * 256 + b.toNat + 1) * 256 ^ bs.length
          ≤ ((v.toNat + 1) * 256) * 256 ^ bs.length := Nat.mul_le_mul_right _ (by omega)
        _ = (v.toNat + 1) * (256 * 256 ^ bs.length) := Nat.mul_assoc _ _ _
        _ ≤ 2 ^ 64 := hv

/-- A number from its eight bytes. -/
theorem foldl_wrBe64 (v : UInt64) :
    (Ouch.wrBe64 v).foldl (fun (v : UInt64) b => (v <<< 8) ||| b.toUInt64) 0 = v := by
  apply UInt64.toNat_inj.mp
  rw [toNat_foldl_be _ _ (by rw [Ouch.length_wrBe64]; decide)]
  have hv := v.toNat_lt
  have hbyte : ∀ k < 8, ((v >>> (8 * k).toUInt64).toUInt8).toNat
      = v.toNat / 2 ^ (8 * k) % 256 := by
    intro k hk
    rw [UInt64.toNat_toUInt8, UInt64.toNat_shiftRight, Nat.toUInt64_eq, UInt64.toNat_ofNat',
      Nat.mod_eq_of_lt (by omega : 8 * k < 2 ^ 64), Nat.mod_eq_of_lt (by omega : 8 * k < 64),
      Nat.shiftRight_eq_div_pow]
  have hlist : Ouch.wrBe64 v = [7, 6, 5, 4, 3, 2, 1, 0].map fun k : Nat =>
      (v >>> (8 * k).toUInt64).toUInt8 := rfl
  -- A quotient is the next one and a byte.
  have hjoin : ∀ k, v.toNat / 2 ^ (8 * (k + 1)) * 256 + v.toNat / 2 ^ (8 * k) % 256
      = v.toNat / 2 ^ (8 * k) := by
    intro k
    rw [Nat.mul_add, Nat.pow_add, ← Nat.div_div_eq_div_mul]
    exact Nat.div_add_mod' _ _
  have htop : v.toNat / 2 ^ (8 * 7) % 256 = v.toNat / 2 ^ (8 * 7) := Nat.mod_eq_of_lt (by omega)
  rw [hlist]
  simp only [List.map_cons, List.map_nil, List.foldl_cons, List.foldl_nil, UInt64.toNat_zero]
  rw [hbyte 7 (by decide), hbyte 6 (by decide), hbyte 5 (by decide), hbyte 4 (by decide),
    hbyte 3 (by decide), hbyte 2 (by decide), hbyte 1 (by decide), hbyte 0 (by decide),
    Nat.zero_mul, Nat.zero_add, htop, hjoin 6, hjoin 5, hjoin 4, hjoin 3, hjoin 2, hjoin 1,
    hjoin 0]
  exact Nat.div_one _

theorem rdU64_behind {m : List UInt8} (pre : List UInt8) {v : UInt64}
    (hm : pre ++ Ouch.wrBe64 v <+: m) {i : Nat} (h : pre.length = i) : rdU64 m i = v := by
  have hbytes : (List.range 8).map (fun k => byteAt m (i + k)) = Ouch.wrBe64 v := by
    refine List.ext_getElem (by simp [Ouch.length_wrBe64]) fun k h₁ h₂ => ?_
    rw [List.getElem_map, List.getElem_range]
    exact byteAt_behind pre _ hm h h₂
  rw [rdU64, ← List.foldl_map (f := fun k => byteAt m (i + k))
    (g := fun (v : UInt64) b => (v <<< 8) ||| b.toUInt64), hbytes]
  exact foldl_wrBe64 v

/-! ### The encoders -/

/-- The bytes of a message the parser does not look at, and whether an add carries the mark of
its firm (type `F`). -/
structure Skipped where
  attributed : Bool
  track : Fin 2 → UInt8
  timestamp : Fin 6 → UInt8
  stock : Fin 8 → UInt8
  trailing : List UInt8

/-- The start of the order messages: type, locate, track and time stamp. -/
def header (kind : UInt8) (locate : UInt16) (r : Skipped) : List UInt8 :=
  [kind] ++ putU16BE locate ++ List.ofFn r.track ++ List.ofFn r.timestamp

/-- The type byte of a message. -/
def kindOf (r : Skipped) : ItchEvent → UInt8
  | .add .. => if r.attributed then 70 else 65
  | .delete .. => 68
  | .cancel .. => 88
  | .replace .. => 85
  | .book .. => 81

/-- The message of an event, as `itchAdd`, `itchDelete` and `itchBookQuery` and their like lay
it out. -/
def encode (r : Skipped) (ev : ItchEvent) : List UInt8 :=
  match ev with
  | .add locate orderRef side shares price =>
      header (kindOf r ev) locate r ++ Ouch.wrBe64 orderRef ++ [if side = .sell then 83 else 66]
        ++ Ouch.wrBe32 shares ++ List.ofFn r.stock ++ Ouch.wrBe32 (price * 100) ++ r.trailing
  | .delete locate orderRef =>
      header (kindOf r ev) locate r ++ Ouch.wrBe64 orderRef ++ r.trailing
  | .cancel locate orderRef shares =>
      header (kindOf r ev) locate r ++ Ouch.wrBe64 orderRef ++ Ouch.wrBe32 shares ++ r.trailing
  | .replace locate orderRef newOrderRef shares price =>
      header (kindOf r ev) locate r ++ Ouch.wrBe64 orderRef ++ Ouch.wrBe64 newOrderRef
        ++ Ouch.wrBe32 shares ++ Ouch.wrBe32 (price * 100) ++ r.trailing
  | .book locate => [kindOf r ev] ++ putU16BE locate ++ r.trailing

/-- The length of a message without trailing bytes. -/
def fixedLength : ItchEvent → Nat
  | .add .. => 36
  | .delete .. => 19
  | .cancel .. => 23
  | .replace .. => 35
  | .book .. => 3

/-- What a message can carry: the side is B or S and a price fits in 32 bits as hundredths. -/
def Encodable : ItchEvent → Prop
  | .add _ _ side _ price => (side = .buy ∨ side = .sell) ∧ price ≤ Ouch.maxPrice
  | .replace _ _ _ _ price => price ≤ Ouch.maxPrice
  | _ => True

theorem length_header (kind : UInt8) (locate : UInt16) (r : Skipped) :
    (header kind locate r).length = 11 := by
  simp [header, putU16BE]

theorem length_encode (r : Skipped) (ev : ItchEvent) :
    (encode r ev).length = fixedLength ev + r.trailing.length := by
  cases ev <;>
    simp [encode, fixedLength, length_header, Ouch.length_wrBe32, Ouch.length_wrBe64, putU16BE] <;>
    omega

theorem byteAt_encode (r : Skipped) (ev : ItchEvent) : byteAt (encode r ev) 0 = kindOf r ev := by
  cases ev <;> rfl

/-- A price that fits comes back. -/
theorem itchToCents_mul {price : UInt32} (h : price ≤ Ouch.maxPrice) :
    itchToCents (price * 100) = price := by
  have hle : price.toNat ≤ 42949672 := UInt32.le_iff_toNat_le.mp h
  apply UInt32.toNat_inj.mp
  rw [itchToCents, UInt32.toNat_div, UInt32.toNat_mul]
  change price.toNat * 100 % 2 ^ 32 / 100 = price.toNat
  omega

section
variable (p : ItchParser) (r : Skipped) (locate : UInt16) (orderRef : UInt64)

/-- The start of the order messages: the locate and the reference. -/
theorem rd_header {m : List UInt8} (kind : UInt8)
    (hm : header kind locate r ++ Ouch.wrBe64 orderRef <+: m) :
    rdU16 m 1 = locate ∧ rdU64 m 11 = orderRef := by
  refine ⟨rdU16_behind [kind] (List.IsPrefix.trans ?_ hm) rfl,
    rdU64_behind _ hm (length_header kind locate r)⟩
  simp [header]

/-- The round trip of an add. -/
theorem feed_add {side : Side} (shares : UInt32) {price : UInt32}
    (hside : side = .buy ∨ side = .sell) (hprice : price ≤ Ouch.maxPrice) :
    p.feed (encode r (.add locate orderRef side shares price))
      = (p, some (.add locate orderRef side shares price)) := by
  obtain ⟨m, hm⟩ : ∃ m, m = encode r (.add locate orderRef side shares price) := ⟨_, rfl⟩
  obtain ⟨kind, hkind⟩ : ∃ kind, kind = kindOf r (.add locate orderRef side shares price) :=
    ⟨_, rfl⟩
  have hlen : m.length = 36 + r.trailing.length := hm ▸ length_encode r _
  have hfirst : byteAt m 0 = kind := hm ▸ hkind ▸ byteAt_encode r _
  -- The fields one after the other, each behind the ones before it.
  obtain ⟨hlocate, href⟩ := rd_header r locate orderRef (m := m) kind (by simp [hm, encode, hkind])
  have hletter : byteAt m 19 = if side = .sell then 83 else 66 :=
    byteAt_behind (header kind locate r ++ Ouch.wrBe64 orderRef)
      [if side = .sell then 83 else 66] (by simp [hm, encode, hkind]) (k := 0)
      (by simp [length_header, Ouch.length_wrBe64]) (by simp)
  have hshares : rdU32 m 20 = shares :=
    rdU32_behind (header kind locate r ++ Ouch.wrBe64 orderRef
      ++ [if side = .sell then 83 else 66]) (by simp [hm, encode, hkind])
      (by simp [length_header, Ouch.length_wrBe64])
  have hcents : rdU32 m 32 = price * 100 :=
    rdU32_behind (header kind locate r ++ Ouch.wrBe64 orderRef
      ++ [if side = .sell then 83 else 66] ++ Ouch.wrBe32 shares ++ List.ofFn r.stock)
      (by simp [hm, encode, hkind])
      (by simp [length_header, Ouch.length_wrBe64, Ouch.length_wrBe32])
  have hback : (if byteAt m 19 = 83 then Side.sell else .buy) = side := by
    rw [hletter]
    rcases hside with rfl | rfl <;> rfl
  have hadd : byteAt m 0 = 65 ∨ byteAt m 0 = 70 := by
    rw [hfirst, hkind, kindOf]
    cases r.attributed <;> simp
  have hnotR : byteAt m 0 ≠ 82 := by
    rcases hadd with h | h <;> rw [h] <;> decide
  rw [← hm, feed, if_neg (by omega)]
  simp only
  rw [if_neg hnotR, if_pos hadd, if_neg (by omega), hback, hlocate, href, hshares, hcents,
    itchToCents_mul hprice]

/-- The round trip of a delete. -/
theorem feed_delete :
    p.feed (encode r (.delete locate orderRef)) = (p, some (.delete locate orderRef)) := by
  obtain ⟨m, hm⟩ : ∃ m, m = encode r (.delete locate orderRef) := ⟨_, rfl⟩
  have hlen : m.length = 19 + r.trailing.length := hm ▸ length_encode r _
  have hfirst : byteAt m 0 = 68 := hm ▸ byteAt_encode r _
  obtain ⟨hlocate, href⟩ := rd_header r locate orderRef (m := m) 68 (by simp [hm, encode, kindOf])
  rw [← hm, feed, if_neg (by omega)]
  simp [hfirst, hlocate, href, hlen]

/-- The round trip of a partial cancel. -/
theorem feed_cancel (shares : UInt32) :
    p.feed (encode r (.cancel locate orderRef shares))
      = (p, some (.cancel locate orderRef shares)) := by
  obtain ⟨m, hm⟩ : ∃ m, m = encode r (.cancel locate orderRef shares) := ⟨_, rfl⟩
  have hlen : m.length = 23 + r.trailing.length := hm ▸ length_encode r _
  have hfirst : byteAt m 0 = 88 := hm ▸ byteAt_encode r _
  obtain ⟨hlocate, href⟩ := rd_header r locate orderRef (m := m) 88 (by simp [hm, encode, kindOf])
  have hshares : rdU32 m 19 = shares :=
    rdU32_behind (header 88 locate r ++ Ouch.wrBe64 orderRef) (by simp [hm, encode, kindOf])
      (by simp [length_header, Ouch.length_wrBe64])
  rw [← hm, feed, if_neg (by omega)]
  simp [hfirst, hlocate, href, hshares, hlen]

/-- The round trip of a replace. -/
theorem feed_replace (newOrderRef : UInt64) (shares : UInt32) {price : UInt32}
    (hprice : price ≤ Ouch.maxPrice) :
    p.feed (encode r (.replace locate orderRef newOrderRef shares price))
      = (p, some (.replace locate orderRef newOrderRef shares price)) := by
  obtain ⟨m, hm⟩ : ∃ m, m = encode r (.replace locate orderRef newOrderRef shares price) :=
    ⟨_, rfl⟩
  have hlen : m.length = 35 + r.trailing.length := hm ▸ length_encode r _
  have hfirst : byteAt m 0 = 85 := hm ▸ byteAt_encode r _
  obtain ⟨hlocate, href⟩ := rd_header r locate orderRef (m := m) 85 (by simp [hm, encode, kindOf])
  have hnew : rdU64 m 19 = newOrderRef :=
    rdU64_behind (header 85 locate r ++ Ouch.wrBe64 orderRef) (by simp [hm, encode, kindOf])
      (by simp [length_header, Ouch.length_wrBe64])
  have hshares : rdU32 m 27 = shares :=
    rdU32_behind (header 85 locate r ++ Ouch.wrBe64 orderRef ++ Ouch.wrBe64 newOrderRef)
      (by simp [hm, encode, kindOf]) (by simp [length_header, Ouch.length_wrBe64])
  have hcents : rdU32 m 31 = price * 100 :=
    rdU32_behind (header 85 locate r ++ Ouch.wrBe64 orderRef ++ Ouch.wrBe64 newOrderRef
      ++ Ouch.wrBe32 shares) (by simp [hm, encode, kindOf])
      (by simp [length_header, Ouch.length_wrBe64, Ouch.length_wrBe32])
  rw [← hm, feed, if_neg (by omega)]
  simp [hfirst, hlocate, href, hnew, hshares, hcents, hlen, itchToCents_mul hprice]

/-- The round trip of a book query. -/
theorem feed_book : p.feed (encode r (.book locate)) = (p, some (.book locate)) := by
  obtain ⟨m, hm⟩ : ∃ m, m = encode r (.book locate) := ⟨_, rfl⟩
  have hlen : m.length = 3 + r.trailing.length := hm ▸ length_encode r _
  have hfirst : byteAt m 0 = 81 := hm ▸ byteAt_encode r _
  have hlocate : rdU16 m 1 = locate :=
    rdU16_behind [81] (by simp [hm, encode, kindOf]) rfl
  rw [← hm, feed, if_neg (by omega)]
  simp [hfirst, hlocate]

end

/-- `feed` inverts the encoders. -/
theorem feed_encode (p : ItchParser) (r : Skipped) {ev : ItchEvent} (h : Encodable ev) :
    p.feed (encode r ev) = (p, some ev) := by
  cases ev with
  | add locate orderRef side shares price => exact feed_add p r locate orderRef shares h.1 h.2
  | delete locate orderRef => exact feed_delete p r locate orderRef
  | cancel locate orderRef shares => exact feed_cancel p r locate orderRef shares
  | replace locate orderRef newOrderRef shares price =>
      exact feed_replace p r locate orderRef newOrderRef shares h
  | book locate => exact feed_book p r locate

/-- A message that was cut off is no event, and the symbols stay. -/
theorem feed_take_encode (p : ItchParser) (r : Skipped) (ev : ItchEvent) {n : Nat}
    (hn : n < fixedLength ev) : p.feed ((encode r ev).take n) = (p, none) := by
  have hlen : ((encode r ev).take n).length = n := by
    rw [List.length_take, length_encode]
    omega
  by_cases h3 : n < 3
  · rw [feed, if_pos (by omega)]
  · -- The type byte is still there, and the guard of the type stops the rest.
    have hkind : byteAt ((encode r ev).take n) 0 = kindOf r ev := by
      rw [← byteAt_encode r ev, byteAt, byteAt, List.getD_eq_getElem?_getD,
        List.getD_eq_getElem?_getD, List.getElem?_take_of_lt (by omega)]
    rw [feed, if_neg (by omega)]
    simp only [hkind, hlen]
    cases ev with
    | add =>
        simp only [fixedLength] at hn
        cases hattr : r.attributed <;> simp [kindOf, hattr, hn]
    | delete | cancel | replace =>
        simp only [fixedLength] at hn
        simp [kindOf, hn]
    | book => exact absurd hn h3

/-! ### The symbol map -/

/-- The symbol of a directory message: eight bytes, cut at the first zero byte and stripped of
the blanks at the end. -/
def directorySymbol (m : List UInt8) : List UInt8 :=
  ((slice m 11 8).takeWhile (· ≠ 0)).rdropWhile (· = 32)

/-- A directory message of a symbol: type `R`, 19 bytes or more. -/
def Lists (sym m : List UInt8) : Prop :=
  m[0]? = some 82 ∧ 19 ≤ m.length ∧ directorySymbol m = sym

instance (sym m : List UInt8) : Decidable (Lists sym m) :=
  inferInstanceAs (Decidable (_ ∧ _ ∧ _))

/-- The parser after a sequence of messages. -/
def feedAll (p : ItchParser) (msgs : List (List UInt8)) : ItchParser :=
  msgs.foldl (fun p m => (p.feed m).1) p

theorem symbolOf_eq {m : List UInt8} (h : 19 ≤ m.length) : symbolOf m = directorySymbol m := by
  have hbytes : (List.range 8).map (fun i => byteAt m (11 + i)) = slice m 11 8 := by
    refine List.ext_getElem ?_ fun k h₁ h₂ => ?_
    · simp [slice]
      omega
    · have hk : k < 8 := by simpa using h₁
      rw [List.getElem_map, List.getElem_range, byteAt, List.getD_eq_getElem?_getD,
        List.getElem?_eq_getElem (by omega), Option.getD_some]
      simp [slice]
  rw [symbolOf, hbytes]
  rfl

/-- Only a directory message of 19 bytes or more changes the parser. -/
theorem feed_fst_of_not {p : ItchParser} {m : List UInt8}
    (h : ¬ (byteAt m 0 = 82 ∧ 19 ≤ m.length)) : (p.feed m).1 = p := by
  by_cases hR : byteAt m 0 = 82
  · have hlen : m.length < 19 := by
      by_contra hge
      exact h ⟨hR, by omega⟩
    simp only [feed, if_pos hlen, apply_ite Prod.fst, ite_self]
  · simp only [feed, if_neg hR, apply_ite Prod.fst, ite_self]

/-- What a message does to the symbol map. -/
theorem symbolMap_feed (p : ItchParser) (m sym : List UInt8) :
    (p.feed m).1.symbolMap sym
      = if Lists sym m ∧ sym ≠ [] then some (rdU16 m 1) else p.symbolMap sym := by
  by_cases hdir : byteAt m 0 = 82 ∧ 19 ≤ m.length
  · obtain ⟨hR, hlen⟩ := hdir
    have hlists : Lists sym m ↔ symbolOf m = sym := by
      rw [Lists, getElem?_eq_byteAt (by omega), hR, symbolOf_eq hlen]
      simp [hlen]
    rw [feed, if_neg (by omega)]
    simp only [hR, if_true, if_neg (show ¬ m.length < 19 by omega), hlists]
    by_cases hempty : symbolOf m = []
    · rw [if_pos hempty, if_neg fun hc => hc.2 (hc.1.symm.trans hempty)]
    · rw [if_neg hempty]
      by_cases heq : symbolOf m = sym
      · subst heq
        rw [if_pos ⟨rfl, hempty⟩]
        exact Function.update_self _ _ _
      · rw [if_neg fun hc => heq hc.1]
        exact Function.update_of_ne (Ne.symm heq) _ _
  · rw [feed_fst_of_not hdir, if_neg]
    rintro ⟨⟨hfirst, hlen, -⟩, -⟩
    rw [getElem?_eq_byteAt (by omega), Option.some.injEq] at hfirst
    exact hdir ⟨hfirst, hlen⟩

/-- The symbol map after any messages. -/
theorem symbolMap_feedAll (msgs : List (List UInt8)) (sym : List UInt8) :
    (feedAll {} msgs).symbolMap sym
      = if sym = [] then none
        else (msgs.filter fun m => Lists sym m).getLast?.map fun m => rdU16 m 1 := by
  induction msgs using List.reverseRecOn with
  | nil => simp [feedAll]
  | append_singleton msgs m ih =>
      rw [feedAll, List.foldl_append, List.foldl_cons, List.foldl_nil, symbolMap_feed]
      change (if _ then _ else (feedAll {} msgs).symbolMap sym) = _
      rw [ih]
      by_cases hempty : sym = []
      · simp [hempty]
      · by_cases hlists : Lists sym m
        · simp [hempty, hlists, List.filter_append]
        · simp [hempty, hlists, List.filter_append]

/-- **Decoding inverts the wire encoding and stays inside the message.** -/
theorem itch_decode :
    (∀ p m, feedChecked p m = some (feed p m)) ∧
    (∀ p r ev, Encodable ev → feed p (encode r ev) = (p, some ev)) ∧
    (∀ p r ev n, n < fixedLength ev → feed p ((encode r ev).take n) = (p, none)) ∧
    ∀ msgs sym, (feedAll {} msgs).symbolMap sym
      = if sym = [] then none
        else (msgs.filter fun m => Lists sym m).getLast?.map fun m => rdU16 m 1 :=
  ⟨feedChecked_eq, fun p r _ h => feed_encode p r h,
    fun p r ev _ hn => feed_take_encode p r ev hn, symbolMap_feedAll⟩

/-- A sell, the same message without its last byte, and the directory message of `AB`. -/
theorem itch_decode_sell :
    feed {} (encode ⟨false, fun _ => 0, fun _ => 0, fun _ => 32, []⟩ (.add 1 7 .sell 5 100))
        = ({}, some (.add 1 7 .sell 5 100)) ∧
      feed {} ((encode ⟨false, fun _ => 0, fun _ => 0, fun _ => 32, []⟩
        (.add 1 7 .sell 5 100)).take 35) = ({}, none) ∧
      (feedAll {} [[82, 0, 3, 0, 0, 0, 0, 0, 0, 0, 0, 65, 66, 32, 32, 32, 32, 32, 32]]).symbolMap
        [65, 66] = some 3 := by
  refine ⟨itch_decode.2.1 _ _ _ ⟨by decide, by decide⟩, itch_decode.2.2.1 _ _ _ _ (by decide), ?_⟩
  rw [itch_decode.2.2.2]
  decide +kernel

end ItchParser

end NebulaX
