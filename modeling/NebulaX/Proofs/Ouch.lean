import NebulaX.Lib.Trace
import NebulaX.Server.TcpTradeServer

/-!
# `NebulaX.Proofs.Ouch`: the identity of an order in the order protocol

A client knows an order by its token and the exchange by its reference number. Every frame
sent for a request has both, at the same offsets in all four kinds (`Headed`), and the table
of references gives each token its own number (`RefTable`).
-/

set_option autoImplicit false

namespace NebulaX

open NebulaX.Lib

namespace Ouch

/-! ### Fields of a frame -/

theorem length_wrBe32 (v : UInt32) : (wrBe32 v).length = 4 := rfl

theorem length_wrBe64 (v : UInt64) : (wrBe64 v).length = 8 := rfl

/-- Eight bytes are the bytes of one number only. -/
theorem wrBe64_injective : Function.Injective wrBe64 := by
  intro v w h
  simp only [wrBe64, List.map_inj_left, List.mem_range] at h
  have hbyte : ∀ i < 8, v.toNat / 2 ^ (8 * (7 - i)) % 256 = w.toNat / 2 ^ (8 * (7 - i)) % 256 := by
    intro i hi
    have hshift : (8 * (7 - i)).toUInt64.toNat % 64 = 8 * (7 - i) := by
      rw [show (8 * (7 - i)).toUInt64 = UInt64.ofNat (8 * (7 - i)) from rfl, UInt64.toNat_ofNat']
      omega
    have hbytes := congrArg UInt8.toNat (h i hi)
    rw [UInt64.toNat_toUInt8, UInt64.toNat_toUInt8, UInt64.toNat_shiftRight,
      UInt64.toNat_shiftRight, hshift, Nat.shiftRight_eq_div_pow,
      Nat.shiftRight_eq_div_pow] at hbytes
    exact hbytes
  refine UInt64.toNat_inj.mp (eq_of_bytes_eq (k := 8) v.toNat_lt w.toNat_lt
    fun i hi => ?_)
  have hi' := hbyte (7 - i) (by omega)
  rwa [show 7 - (7 - i) = i by omega, Nat.pow_mul] at hi'

/-- The bytes of the token an order id is written as. -/
def tokenText (orderId : UInt64) : List UInt8 := (padded 14 orderId.toNat).take 14

theorem length_tokenText {orderId : UInt64} : (tokenText orderId).length = 14 := by
  rw [tokenText, List.length_take, padded, List.length_append, List.length_replicate]
  omega

/-- What the order messages have in common. -/
structure Headed (buf : List UInt8) (len : Nat) (type : UInt8) (ref orderId : UInt64) : Prop where
  length : buf.length = len
  type : slice buf 0 1 = [type]
  ref : slice buf 1 8 = wrBe64 ref
  token : slice buf 9 14 = tokenText orderId

/-- Writes behind the token keep the head. -/
theorem Headed.writeAt {buf : List UInt8} {len : Nat} {type : UInt8} {ref orderId : UInt64}
    (h : Headed buf len type ref orderId) (off : Nat) (bytes : List UInt8) (hoff : 23 ≤ off)
    (hfit : off + bytes.length ≤ len) : Headed (writeAt buf off bytes) len type ref orderId := by
  have hfit' : off + bytes.length ≤ buf.length := by rw [h.length]; exact hfit
  refine ⟨(length_writeAt hfit').trans h.length, ?_, ?_, ?_⟩
  · rw [slice_writeAt_of_disjoint hfit' (by omega), h.type]
  · rw [slice_writeAt_of_disjoint hfit' (by omega), h.ref]
  · rw [slice_writeAt_of_disjoint hfit' (by omega), h.token]

section
variable (len : Nat) (hlen : 24 ≤ len) (type : UInt8) (ref orderId : UInt64) (side : UInt8)
include hlen

/-- The writes of the head lie within the buffer. -/
theorem orderHead_fits :
    1 + (wrBe64 ref).length ≤ (writeAt (List.replicate len 32) 0 [type]).length ∧
    9 + (tokenText orderId ++ [0]).length ≤
      (writeAt (writeAt (List.replicate len 32) 0 [type]) 1 (wrBe64 ref)).length ∧
    (writeAt (writeAt (writeAt (List.replicate len 32) 0 [type]) 1 (wrBe64 ref)) 9
      (tokenText orderId ++ [0])).length = len := by
  have h₁ : (writeAt (List.replicate len 32) 0 [type]).length = len := by
    rw [length_writeAt (by simp; omega), List.length_replicate]
  have hfit₁ : 1 + (wrBe64 ref).length ≤ (writeAt (List.replicate len 32) 0 [type]).length := by
    rw [h₁, length_wrBe64]
    omega
  have h₂ := (length_writeAt hfit₁).trans h₁
  have hfit₂ : 9 + (tokenText orderId ++ [0]).length ≤
      (writeAt (writeAt (List.replicate len 32) 0 [type]) 1 (wrBe64 ref)).length := by
    rw [h₂, List.length_append, length_tokenText]
    exact hlen
  exact ⟨hfit₁, hfit₂, (length_writeAt hfit₂).trans h₂⟩

theorem headed_orderHead : Headed (orderHead len type ref orderId side) len type ref orderId := by
  obtain ⟨hfit₁, hfit₂, hlength⟩ := orderHead_fits len hlen type ref orderId
  have hzero : 0 ≤ (List.replicate len (32 : UInt8)).length := Nat.zero_le _
  -- the zero byte behind the token is overwritten by the side
  suffices h : Headed (writeAt (writeAt (writeAt (List.replicate len 32) 0 [type]) 1 (wrBe64 ref))
      9 (tokenText orderId ++ [0])) len type ref orderId from
        h.writeAt 23 [side] (Nat.le_refl 23) hlen
  refine ⟨hlength, ?_, ?_, ?_⟩
  · rw [slice_writeAt_of_disjoint hfit₂ (by omega), slice_writeAt_of_disjoint hfit₁ (by omega),
      slice_writeAt hzero (by simp)]
    rfl
  · rw [slice_writeAt_of_disjoint hfit₂ (by omega),
      slice_writeAt (by omega) (Nat.le_of_eq (length_wrBe64 ref).symm)]
    rfl
  · rw [slice_writeAt (by omega) (by rw [List.length_append, length_tokenText]; decide),
      List.take_append_of_le_length (Nat.le_of_eq length_tokenText.symm),
      List.take_of_length_le (Nat.le_of_eq length_tokenText)]

/-- Behind the side there are blanks. -/
theorem slice_orderHead {off n : Nat} (hoff : 24 ≤ off) (hn : off + n ≤ len) :
    slice (orderHead len type ref orderId side) off n = List.replicate n 32 := by
  obtain ⟨hfit₁, hfit₂, hlength⟩ := orderHead_fits len hlen type ref orderId
  have htoken : (tokenText orderId ++ [0]).length = 15 := by
    rw [List.length_append, length_tokenText]
    rfl
  change slice (writeAt (writeAt (writeAt (writeAt (List.replicate len 32) 0 [type]) 1 (wrBe64 ref))
    9 (tokenText orderId ++ [0])) 23 [side]) off n = _
  rw [slice_writeAt_of_disjoint (by rw [hlength]; exact hlen) (Or.inr hoff),
    slice_writeAt_of_disjoint hfit₂ (by omega),
    slice_writeAt_of_disjoint hfit₁ (by rw [length_wrBe64]; omega),
    slice_writeAt_of_disjoint (by simp; omega) (by simp; omega), slice_replicate _ hn]

end

/-! ### Checksums -/

/-- The last byte is the sum of the others modulo 256. -/
def Sums (r : List UInt8) : Prop :=
  ∃ front last, r = front ++ [last] ∧ last.toNat = (front.map UInt8.toNat).sum % 256

theorem checksum_toNat (b : List UInt8) (n : Nat) :
    (checksum b n).toNat = ((b.take n).map UInt8.toNat).sum % 256 := by
  have hloop : ∀ (l : List UInt8) (s : UInt32),
      (l.foldl (fun s x => s + x.toUInt32) s).toNat
        = (s.toNat + (l.map UInt8.toNat).sum) % 2 ^ 32 := by
    intro l
    induction l with
    | nil => intro s; simp
    | cons x l ih =>
        intro s
        rw [List.foldl_cons, ih, UInt32.toNat_add, UInt8.toNat_toUInt32, List.map_cons,
          List.sum_cons]
        omega
  rw [checksum, UInt32.toNat_toUInt8, hloop]
  simp

theorem sums_sealFrame {buf : List UInt8} {len : Nat} (h : buf.length = len + 1) :
    Sums (sealFrame buf (len + 1)) := by
  refine ⟨buf.take len, checksum buf len, ?_, checksum_toNat buf len⟩
  rw [sealFrame, writeAt, Nat.add_sub_cancel, List.drop_of_length_le (by simp [h]), List.append_nil]

/-! ### The frames of the four encoders -/

/-- The types of the frames about an order, with their lengths. -/
def orderFrames : List (UInt8 × Nat) :=
  [(kOuchMsgAck, kOuchAckMsgLen), (kOuchMsgExec, kOuchExecMsgLen),
    (kOuchMsgCancel, kOuchCancelMsgLen), (kOuchMsgReject, kOuchRejectMsgLen)]

/-- A frame about an order has the length of its type and a right checksum. -/
def WellFormed (r : List UInt8) : Prop :=
  ∃ type, slice r 0 1 = [type] ∧ (type, r.length) ∈ orderFrames ∧ Sums r

/-- A frame about an order, with its reference and its token. -/
structure Identifies (r : List UInt8) (ref orderId : UInt64) : Prop where
  wellFormed : WellFormed r
  ref : slice r 1 8 = wrBe64 ref
  token : slice r 9 14 = tokenText orderId

/-- A frame that was built on the head of an order message. -/
theorem identifies_sealFrame {buf : List UInt8} {len : Nat} {type : UInt8} {ref orderId : UInt64}
    (h : Headed buf (len + 1) type ref orderId) (hlen : 23 ≤ len)
    (htype : (type, len + 1) ∈ orderFrames) :
    Identifies (sealFrame buf (len + 1)) ref orderId := by
  have hseal : Headed (sealFrame buf (len + 1)) (len + 1) type ref orderId :=
    h.writeAt len _ hlen (Nat.le_refl _)
  refine ⟨⟨type, hseal.type, ?_, sums_sealFrame h.length⟩, hseal.ref, hseal.token⟩
  rw [hseal.length]
  exact htype

theorem length_bookText (locate : UInt64) : (bookText locate).length ≤ 10 :=
  List.length_take_le _ _

theorem identifies_accepted (ref orderId : UInt64) (side : UInt8) (shares : UInt32)
    (symbolId : UInt64) :
    Identifies (encodeAccepted ref orderId side shares symbolId) ref orderId := by
  have hbook := length_bookText symbolId
  have h := headed_orderHead kOuchAckMsgLen (by decide) kOuchMsgAck ref orderId side
  have h := h.writeAt 24 (wrBe32 shares) (by decide) (by simp only [length_wrBe32]; decide)
  have h := h.writeAt 28 (bookText symbolId) (by decide) (by unfold kOuchAckMsgLen; omega)
  exact identifies_sealFrame h (by decide) (by decide)

theorem identifies_canceled (ref orderId : UInt64) (side : UInt8) (canceledQty : UInt32)
    (symbolId : UInt64) :
    Identifies (encodeCanceled ref orderId side canceledQty symbolId) ref orderId := by
  have hbook := length_bookText symbolId
  have h := headed_orderHead kOuchCancelMsgLen (by decide) kOuchMsgCancel ref orderId side
  have h := h.writeAt 24 (wrBe32 canceledQty) (by decide) (by simp only [length_wrBe32]; decide)
  have h := h.writeAt 28 (bookText symbolId) (by decide) (by unfold kOuchCancelMsgLen; omega)
  exact identifies_sealFrame h (by decide) (by decide)

theorem identifies_executed (ref orderId : UInt64) (side : UInt8) (shares : UInt32)
    (priceCents : UInt64) (execQty : UInt32) (execPriceCents : UInt64) :
    Identifies (encodeExecuted ref orderId side shares priceCents execQty execPriceCents)
      ref orderId := by
  have h := headed_orderHead kOuchExecMsgLen (by decide) kOuchMsgExec ref orderId side
  have h := h.writeAt 24 (wrBe32 shares) (by decide) (by simp only [length_wrBe32]; decide)
  have h := h.writeAt 28 (wrBe32 (priceCents * 100).toUInt32) (by decide)
    (by simp only [length_wrBe32]; decide)
  have h := h.writeAt 32 (wrBe32 execQty) (by decide) (by simp only [length_wrBe32]; decide)
  have h := h.writeAt 36 (wrBe32 (execPriceCents * 100).toUInt32) (by decide)
    (by simp only [length_wrBe32]; decide)
  have h := h.writeAt 40 [84] (by decide) (by decide)
  exact identifies_sealFrame h (by decide) (by decide)

theorem identifies_rejected (ref orderId : UInt64) (side : UInt8) (reason : List UInt8) :
    Identifies (encodeRejected ref orderId side reason) ref orderId := by
  have hreason : (reason.take 11).length ≤ 11 := List.length_take_le _ _
  have h := headed_orderHead kOuchRejectMsgLen (by decide) kOuchMsgReject ref orderId side
  have h := h.writeAt 24 (reason.take 11) (by decide) (by unfold kOuchRejectMsgLen; omega)
  exact identifies_sealFrame h (by decide) (by decide)

/-! ### Numbers in fields -/

/-- Digits up to the end or up to something else are read as their value. -/
theorem strtoull_digits {ds rest : List UInt8} (hne : ds ≠ []) (hds : ∀ b ∈ ds, IsDigit b)
    (hrest : ∀ b ∈ rest.head?, ¬ IsDigit b) (hv : value ds < 2 ^ 64) :
    strtoull (ds ++ rest) = UInt64.ofNat (value ds) := by
  have hend : rest.takeWhile (fun b => IsDigit b) = [] := by
    cases rest with
    | nil => rfl
    | cons b rest => exact List.takeWhile_cons_of_neg (by simpa using hrest b rfl)
  have hall : (ds ++ rest).takeWhile (fun b => IsDigit b) = ds := by
    rw [List.takeWhile_append_of_pos fun b hb => decide_eq_true (hds b hb), hend, List.append_nil]
  obtain ⟨b, t, rfl⟩ := List.exists_cons_of_ne_nil hne
  have hb : IsDigit b := hds b List.mem_cons_self
  have hspace : isSpace b = false := by
    unfold IsDigit at hb
    simp only [isSpace, UInt8.le_iff_toNat_le, ← UInt8.toNat_inj]
    simp
    omega
  have hsign : b ≠ 45 ∧ b ≠ 43 := by
    unfold IsDigit at hb
    simp only [Ne, ← UInt8.toNat_inj]
    simp
    omega
  rw [List.cons_append] at hall ⊢
  simp only [strtoull, List.dropWhile_cons_of_neg (by simp [hspace] : ¬ isSpace b = true),
    if_neg hsign.1, if_neg hsign.2, hall]
  rw [if_neg (Nat.not_le.mpr hv)]

/-- A locate of at most ten digits, with blanks behind it. -/
theorem strtoull_bookText {locate : UInt64} (h : locate.toNat < 10 ^ 10) (n : Nat) :
    strtoull (bookText locate ++ List.replicate n 32) = locate := by
  have hlen : (decimal locate.toNat).length ≤ 10 := length_decimal_le (by decide) h
  have hvalue := value_decimal locate.toNat
  rw [bookText, List.take_of_length_le hlen, strtoull_digits (decimal_ne_nil _) (isDigit_decimal _),
    hvalue, UInt64.ofNat_toNat]
  · intro b hb
    rw [List.eq_of_mem_replicate (List.mem_of_mem_head? hb)]
    decide
  · rw [hvalue]
    exact locate.toNat_lt

/-- The ten bytes of the order book field of a message built on a head. -/
theorem book_of_head {len : Nat} (hlen : 39 ≤ len) (type : UInt8) (ref orderId : UInt64)
    (side : UInt8) (shares : UInt32) {locate : UInt64} (h : locate.toNat < 10 ^ 10) :
    strtoull (slice (sealFrame (writeAt (writeAt (orderHead len type ref orderId side) 24
      (wrBe32 shares)) 28 (bookText locate)) len) 28 10) = locate := by
  have hbook := length_bookText locate
  have h₁ := (headed_orderHead len (by omega) type ref orderId side).length
  have hfit₁ : 24 + (wrBe32 shares).length ≤ (orderHead len type ref orderId side).length := by
    rw [h₁, length_wrBe32]
    omega
  have h₂ := (length_writeAt hfit₁).trans h₁
  have hfit₂ : 28 + (bookText locate).length ≤
      (writeAt (orderHead len type ref orderId side) 24 (wrBe32 shares)).length := by omega
  have h₃ := (length_writeAt hfit₂).trans h₂
  rw [sealFrame, slice_writeAt_of_disjoint (by simp only [h₃, List.length_singleton]; omega)
    (by omega), slice_writeAt_append (by omega) hbook,
    slice_writeAt_of_disjoint hfit₁ (by rw [length_wrBe32]; omega),
    slice_orderHead len (by omega) type ref orderId side (by omega) (by omega)]
  exact strtoull_bookText h _

/-- The order book field of a book message. -/
theorem book_of_encodeBook {locate : UInt64} (h : locate.toNat < 10 ^ 10)
    (bidPriceCents bidVol askPriceCents askVol : UInt32) :
    strtoull (slice (encodeBook locate bidPriceCents bidVol askPriceCents askVol) 1 10)
      = locate := by
  have hbook := length_bookText locate
  obtain ⟨buf, hbuf⟩ : ∃ buf, writeAt (writeAt (List.replicate 34 32) 0 [kOuchMsgBook]) 1
    (bookText locate) = buf := ⟨_, rfl⟩
  have h₁ : (writeAt (List.replicate 34 32) 0 [kOuchMsgBook]).length = 34 := rfl
  have h₂ : buf.length = 34 := by
    rw [← hbuf, length_writeAt (by omega), h₁]
  -- the four numbers and the checksum lie behind the field
  have hkeep : ∀ (b : List UInt8) (off : Nat) (v : UInt32), b.length = 34 → 11 ≤ off → off ≤ 30 →
      (writeAt b off (wrBe32 v)).length = 34 ∧
        slice (writeAt b off (wrBe32 v)) 1 10 = slice b 1 10 := by
    intro b off v hb hlow hhigh
    have hfit : off + (wrBe32 v).length ≤ b.length := by
      rw [hb, length_wrBe32]
      omega
    exact ⟨(length_writeAt hfit).trans hb, slice_writeAt_of_disjoint hfit (Or.inl hlow)⟩
  have h₃ := hkeep buf 11 (bidPriceCents * 100) h₂ (by decide) (by decide)
  have h₄ := hkeep _ 15 bidVol h₃.1 (by decide) (by decide)
  have h₅ := hkeep _ 19 (askPriceCents * 100) h₄.1 (by decide) (by decide)
  have h₆ := hkeep _ 23 askVol h₅.1 (by decide) (by decide)
  have hfield : slice (encodeBook locate bidPriceCents bidVol askPriceCents askVol) 1 10
      = slice buf 1 10 := by
    rw [← h₃.2, ← h₄.2, ← h₅.2, ← h₆.2]
    simp only [encodeBook, kOuchBookMsgLen, hbuf, sealFrame]
    exact slice_writeAt_of_disjoint (by rw [h₆.1]; exact Nat.le_refl 34) (Or.inl (by decide))
  have hblank : slice (writeAt (List.replicate 34 32) 0 [kOuchMsgBook])
      (1 + (bookText locate).length) (10 - (bookText locate).length)
      = List.replicate (10 - (bookText locate).length) 32 := by
    rw [slice_writeAt_of_disjoint (by decide) (Or.inr (by simp)), slice_replicate _ (by omega)]
  rw [hfield, ← hbuf, slice_writeAt_append (by omega) hbook, hblank]
  exact strtoull_bookText h _

end Ouch

namespace TcpTradeServer

open Ouch

/-! ### The table of references -/

/-- The references given so far, in the order in which their ids came. -/
structure RefTable (s : TcpTradeServer) (ids : List UInt64) : Prop where
  nodup : ids.Nodup
  bound : ∀ id ∈ ids, id.toNat < 10 ^ 14
  next : s.nextRef.toNat = ids.length + 1
  table : ∀ id ref, s.idToRef id = some ref ↔ ∃ i, ids[i]? = some id ∧ ref.toNat = i + 1

namespace RefTable

variable {s : TcpTradeServer} {ids : List UInt64}

/-- The counter does not wrap: there are no more ids than tokens. -/
theorem length_le (h : RefTable s ids) : ids.length ≤ 10 ^ 14 := by
  have hsub : (ids.map UInt64.toNat).toFinset ⊆ Finset.range (10 ^ 14) := by
    intro n hn
    obtain ⟨id, hid, rfl⟩ := List.mem_map.mp (List.mem_toFinset.mp hn)
    exact Finset.mem_range.mpr (h.bound id hid)
  have hcard := Finset.card_le_card hsub
  rwa [List.toFinset_card_of_nodup (h.nodup.map fun _ _ => UInt64.toNat_inj.mp), List.length_map,
    Finset.card_range] at hcard

/-- Different ids have different references. -/
theorem injective (h : RefTable s ids) {id id' ref : UInt64} (h₁ : s.idToRef id = some ref)
    (h₂ : s.idToRef id' = some ref) : id = id' := by
  obtain ⟨i, hi, hri⟩ := (h.table id ref).mp h₁
  obtain ⟨j, hj, hrj⟩ := (h.table id' ref).mp h₂
  obtain rfl : i = j := by omega
  exact Option.some.inj (hi.symm.trans hj)

/-- An id that was given a reference has it in the table. -/
theorem mem_iff (h : RefTable s ids) {id : UInt64} : id ∈ ids ↔ s.idToRef id ≠ none := by
  constructor
  · intro hmem hnone
    obtain ⟨i, hi⟩ := List.getElem?_of_mem hmem
    have hlt := (List.getElem?_eq_some_iff.mp hi).1
    have hle := h.length_le
    have href : (UInt64.ofNat (i + 1)).toNat = i + 1 := by
      rw [UInt64.toNat_ofNat']
      omega
    rw [(h.table id _).mpr ⟨i, hi, href⟩] at hnone
    cases hnone
  · intro hsome
    obtain ⟨ref, href⟩ := Option.ne_none_iff_exists'.mp hsome
    obtain ⟨i, hi, -⟩ := (h.table id ref).mp href
    exact List.mem_of_getElem? hi

/-- `ref_for` keeps the table, gives the reference of its id and changes no other. -/
theorem refFor (h : RefTable s ids) {id : UInt64} (hid : id.toNat < 10 ^ 14) :
    ∃ ids', RefTable (s.refFor id).1 ids' ∧ (s.refFor id).1.idToRef id = some (s.refFor id).2 ∧
      ∀ k ref, s.idToRef k = some ref → (s.refFor id).1.idToRef k = some ref := by
  unfold TcpTradeServer.refFor
  cases hfind : s.idToRef id with
  | some ref => exact ⟨ids, h, hfind, fun _ _ hk => hk⟩
  | none =>
      have hnew : id ∉ ids := fun hmem => h.mem_iff.mp hmem hfind
      have hle := h.length_le
      have hnext := h.next
      refine ⟨ids ++ [id], ⟨?_, ?_, ?_, ?_⟩, Function.update_self .., fun k ref hk => ?_⟩
      · exact List.nodup_append'.mpr ⟨h.nodup, List.nodup_singleton id, by simpa using hnew⟩
      · intro k hk
        rcases List.mem_append.mp hk with hk | hk
        · exact h.bound k hk
        · rwa [List.mem_singleton.mp hk]
      · show (s.nextRef + 1).toNat = (ids ++ [id]).length + 1
        rw [UInt64.toNat_add, List.length_append]
        simp only [List.length_singleton, UInt64.reduceToNat]
        omega
      · intro k ref
        have hat : ∀ i, (ids ++ [id])[i]? = some k ↔
            ids[i]? = some k ∨ i = ids.length ∧ k = id := by
          intro i
          rcases Nat.lt_trichotomy i ids.length with hi | rfl | hi
          · rw [List.getElem?_append_left hi]
            exact ⟨Or.inl, fun h => h.resolve_right fun e => absurd e.1 (Nat.ne_of_lt hi)⟩
          · simp [eq_comm]
          · rw [List.getElem?_eq_none (by simp; omega), List.getElem?_eq_none (by omega)]
            simp only [reduceCtorEq, false_or, false_iff]
            omega
        show Function.update s.idToRef id (some s.nextRef) k = some ref ↔ _
        by_cases hk : k = id
        · subst hk
          rw [Function.update_self, Option.some.injEq]
          constructor
          · rintro rfl
            exact ⟨ids.length, (hat _).mpr (Or.inr ⟨rfl, rfl⟩), hnext⟩
          · rintro ⟨i, hi, href⟩
            rcases (hat i).mp hi with hi | ⟨rfl, -⟩
            · exact absurd (List.mem_of_getElem? hi) hnew
            · exact UInt64.toNat_inj.mp (hnext.trans href.symm)
        · rw [Function.update_of_ne hk, h.table]
          exact exists_congr fun i => by simp [hat, hk]
      · show Function.update s.idToRef id (some s.nextRef) k = some ref
        rw [Function.update_of_ne (fun e => by rw [e, hfind] at hk; exact nomatch hk), hk]

end RefTable

/-! ### One request -/

/-- An enter or a cancel request whose token is fourteen digits. -/
structure IsRequest (f : List UInt8) : Prop where
  kind : f.getD 0 0 = kOuchMsgOrder ∧ f.length = kOuchOrderMsgLen ∨
    f.getD 0 0 = kOuchMsgCancelReq ∧ f.length = kOuchCancelReqLen
  token : ∀ b ∈ slice f 1 14, IsDigit b

namespace IsRequest

variable {f : List UInt8}

theorem length_token (h : IsRequest f) : (slice f 1 14).length = 14 := by
  have hlen : 19 ≤ f.length := by
    rcases h.kind with ⟨-, hl⟩ | ⟨-, hl⟩ <;> rw [hl] <;> decide
  rw [slice, List.length_take, List.length_drop]
  omega

theorem tokenId_toNat (h : IsRequest f) :
    (tokenId f).toNat = value (slice f 1 14) ∧ (tokenId f).toNat < 10 ^ 14 := by
  have hlt := value_lt h.token
  rw [h.length_token] at hlt
  have hid : tokenId f = UInt64.ofNat (value (slice f 1 14)) := by
    have hne : slice f 1 14 ≠ [] := List.ne_nil_of_length_pos (by rw [h.length_token]; decide)
    have hread := strtoull_digits hne h.token
      (show ∀ b ∈ ([] : List UInt8).head?, ¬ IsDigit b by simp) (by omega)
    rwa [List.append_nil] at hread
  rw [hid, UInt64.toNat_ofNat', Nat.mod_eq_of_lt (by omega)]
  exact ⟨rfl, hlt⟩

/-- The order id is written as the token of the request. -/
theorem tokenText_tokenId (h : IsRequest f) : tokenText (tokenId f) = slice f 1 14 := by
  have hne : slice f 1 14 ≠ [] := List.ne_nil_of_length_pos (by rw [h.length_token]; decide)
  have hpad := padded_value hne h.token
  rw [h.length_token] at hpad
  rw [tokenText, h.tokenId_toNat.1, hpad, List.take_of_length_le (Nat.le_of_eq h.length_token)]

/-- Requests with the same order id have the same token. -/
theorem tokenId_eq_iff {g : List UInt8} (hf : IsRequest f) (hg : IsRequest g) :
    slice f 1 14 = slice g 1 14 ↔ tokenId f = tokenId g := by
  refine ⟨fun h => by rw [tokenId, tokenId, h], fun h => ?_⟩
  rw [← hf.tokenText_tokenId, ← hg.tokenText_tokenId, h]

end IsRequest

theorem identifies_of_mem_enterFrames {ref : UInt64} {ord : OuchEnter} {tif : OrderTif}
    {out : List BinaryResponse} {r : List UInt8} (h : r ∈ enterFrames ref ord tif out) :
    Identifies r ref ord.orderId := by
  simp only [enterFrames] at h
  split at h
  · rw [List.mem_singleton.mp h]
    exact identifies_rejected ..
  · split at h
    · rcases List.mem_cons.mp h with rfl | h
      · exact identifies_accepted ..
      · rw [List.mem_singleton.mp h]
        exact identifies_executed ..
    · rcases List.mem_cons.mp h with rfl | h
      · exact identifies_accepted ..
      · obtain ⟨t, -, rfl⟩ := List.mem_map.mp h
        exact identifies_executed ..

variable {σ : Type} {calls : EngineCalls σ}

/-- What a request leaves: the table is kept, and every frame has the reference the table
gives to the token of the request. -/
theorem handleMessage_spec {st st' : σ × TcpTradeServer} {ids : List UInt64} {f : List UInt8}
    {frames : List (List UInt8)} (h : RefTable st.2 ids) (hf : IsRequest f)
    (hstep : handleMessage calls st f = some (st', frames)) :
    (∃ ids', RefTable st'.2 ids') ∧
      (∀ k ref, st.2.idToRef k = some ref → st'.2.idToRef k = some ref) ∧
      ∀ r ∈ frames, ∃ ref, st'.2.idToRef (tokenId f) = some ref ∧
        Identifies r ref (tokenId f) := by
  obtain ⟨e, s⟩ := st
  obtain ⟨ids', h', hself, hkeep⟩ := h.refFor hf.tokenId_toNat.2
  rcases hf.kind with ⟨htype, -⟩ | ⟨htype, -⟩
  · rw [handleMessage, if_pos htype] at hstep
    cases hord : decodeEnter f with
    | none =>
        rw [hord, Option.some.injEq, Prod.mk.injEq] at hstep
        obtain ⟨rfl, rfl⟩ := hstep
        exact ⟨⟨ids, h⟩, fun _ _ hk => hk, by simp⟩
    | some ord =>
        have hid : ord.orderId = tokenId f := by
          unfold decodeEnter at hord
          split at hord
          · cases hord
          · split at hord
            · cases hord
            · rw [← Option.some.inj hord]
        simp only [hord, handleEnter, hid, Option.bind_eq_bind, Option.bind_eq_some_iff, pure,
          Option.some.injEq, Prod.mk.injEq] at hstep
        obtain ⟨r, -, rfl, rfl⟩ := hstep
        refine ⟨⟨ids', ⟨h'.nodup, h'.bound, h'.next, h'.table⟩⟩, hkeep, fun r hr => ?_⟩
        have hframe := identifies_of_mem_enterFrames hr
        rw [hid] at hframe
        exact ⟨_, hself, hframe⟩
  · rw [handleMessage, if_neg (by rw [htype]; decide), if_neg (by rw [htype]; decide),
      handleCancel] at hstep
    simp only at hstep
    split at hstep
    · rw [Option.some.injEq, Prod.mk.injEq] at hstep
      obtain ⟨rfl, rfl⟩ := hstep
      exact ⟨⟨ids', h'⟩, hkeep, by simp⟩
    · simp only [Option.bind_eq_bind, Option.bind_eq_some_iff, pure, Option.some.injEq,
        Prod.mk.injEq] at hstep
      obtain ⟨r, -, rfl, rfl⟩ := hstep
      refine ⟨⟨ids', h'⟩, hkeep, fun r hr => ⟨_, hself, ?_⟩⟩
      obtain ⟨x, -, hx⟩ := List.mem_filterMap.mp hr
      split at hx
      · rw [← Option.some.inj hx]
        exact identifies_canceled ..
      · cases hx

/-! ### Whole sessions -/

/-- A stream of requests is handled request by request. -/
theorem clientLoop_flatten {fs : List (List UInt8)} (hfs : ∀ f ∈ fs, IsRequest f) {fuel : Nat}
    (hfuel : fs.flatten.length < fuel) (st : σ × TcpTradeServer) :
    clientLoop calls fuel st fs.flatten = run (handleMessage calls) st fs := by
  induction fs generalizing fuel st with
  | nil =>
      obtain ⟨fuel, rfl⟩ := Nat.exists_eq_succ_of_ne_zero (Nat.ne_of_gt (Nat.zero_lt_of_lt hfuel))
      rfl
  | cons f fs ih =>
      obtain ⟨fuel, rfl⟩ := Nat.exists_eq_succ_of_ne_zero (Nat.ne_of_gt (Nat.zero_lt_of_lt hfuel))
      have hf := hfs f List.mem_cons_self
      have hmsg : 0 < f.length ∧ msgLen (f.getD 0 0) = some f.length := by
        rcases hf.kind with ⟨ht, hl⟩ | ⟨ht, hl⟩ <;> rw [ht, hl] <;> exact ⟨by decide, rfl⟩
      obtain ⟨type, body, rfl⟩ := List.exists_cons_of_length_pos hmsg.1
      have hlen : msgLen type = some (type :: body).length := hmsg.2
      have hcut : type :: (body ++ fs.flatten) = (type :: body) ++ fs.flatten := rfl
      rw [List.flatten_cons, List.cons_append, clientLoop, hlen]
      simp only [hcut, List.take_left, List.drop_left]
      rw [if_neg (by simp), run]
      simp only [List.flatten_cons, List.length_append, List.length_cons] at hfuel
      refine Option.bind_congr fun r _ => ?_
      rw [ih (fun g hg => hfs g (List.mem_cons_of_mem _ hg)) (by omega)]

/-- Sessions one after the other are their requests one after the other. -/
theorem run_sessions {sessions : List (List (List UInt8))}
    (hreq : ∀ fs ∈ sessions, ∀ f ∈ fs, IsRequest f) {st st' : σ × TcpTradeServer}
    {outs : List (List (List (List UInt8)))}
    (h : run (handleClient calls) st (sessions.map List.flatten) = some (st', outs)) :
    run (handleMessage calls) st sessions.flatten = some (st', outs.flatten) := by
  induction sessions generalizing st outs with
  | nil =>
      simp only [List.map_nil, run, Option.some.injEq, Prod.mk.injEq] at h
      obtain ⟨rfl, rfl⟩ := h
      rfl
  | cons fs sessions ih =>
      simp only [List.map_cons, run, Option.bind_eq_bind, Option.bind_eq_some_iff, pure,
        Option.some.injEq, Prod.mk.injEq] at h
      obtain ⟨⟨st₁, o⟩, h₁, ⟨st₂, os⟩, h₂, rfl, rfl⟩ := h
      rw [handleClient, clientLoop_flatten (hreq fs List.mem_cons_self) (Nat.lt_succ_self _)] at h₁
      rw [List.flatten_cons, run_append, h₁, Option.bind_some,
        ih (fun gs hgs => hreq gs (List.mem_cons_of_mem _ hgs)) h₂]
      rfl

/-- **Every frame identifies its order.** Requests with tokens of fourteen digits, in any
sessions one after the other and whatever the engine answers: every frame sent for a request
has its token and is well formed, and two frames have the same reference number exactly if
their requests have the same token. An order book field of at most ten digits is read back
as the locate it was written from. -/
theorem frames_identify_orders (calls : EngineCalls σ) (e₀ : σ) :
    (∀ (sessions : List (List (List UInt8))) (st : σ × TcpTradeServer)
        (outs : List (List (List (List UInt8)))), (∀ fs ∈ sessions, ∀ f ∈ fs, IsRequest f) →
      run (handleClient calls) (e₀, {}) (sessions.map List.flatten) = some (st, outs) →
      outs.flatten.length = sessions.flatten.length ∧
      (∀ x ∈ sessions.flatten.zip outs.flatten, ∀ r ∈ x.2,
        slice r 9 14 = slice x.1 1 14 ∧ WellFormed r) ∧
      ∀ x ∈ sessions.flatten.zip outs.flatten, ∀ y ∈ sessions.flatten.zip outs.flatten,
        ∀ r ∈ x.2, ∀ r' ∈ y.2, slice r 1 8 = slice r' 1 8 ↔ slice x.1 1 14 = slice y.1 1 14) ∧
    ∀ locate : UInt64, locate.toNat < 10 ^ 10 →
      (∀ ref orderId side shares,
        strtoull (slice (encodeAccepted ref orderId side shares locate) 28 10) = locate ∧
        strtoull (slice (encodeCanceled ref orderId side shares locate) 28 10) = locate) ∧
      ∀ bidPriceCents bidVol askPriceCents askVol,
        strtoull (slice (encodeBook locate bidPriceCents bidVol askPriceCents askVol) 1 10)
          = locate := by
  refine ⟨fun sessions st outs hreq hrun => ?_, fun locate hl => ⟨fun ref orderId side shares => ?_,
    book_of_encodeBook hl⟩⟩
  · have hall : ∀ f ∈ sessions.flatten, IsRequest f := by
      intro f hf
      obtain ⟨fs, hfs, hmem⟩ := List.mem_flatten.mp hf
      exact hreq fs hfs f hmem
    obtain ⟨hlen, t⟩ := Trace.of_run hall (run_sessions hreq hrun)
    -- every frame sent so far has the reference the table still gives to its token
    obtain ⟨⟨ids, htable⟩, hsent⟩ : (∃ ids, RefTable st.2 ids) ∧
        ∀ x ∈ sessions.flatten.zip outs.flatten, IsRequest x.1 ∧ ∀ r ∈ x.2,
          ∃ ref, st.2.idToRef (tokenId x.1) = some ref ∧ Identifies r ref (tokenId x.1) := by
      refine t.invariant (fun h st => (∃ ids, RefTable st.2 ids) ∧ ∀ x ∈ h, IsRequest x.1 ∧
        ∀ r ∈ x.2, ∃ ref, st.2.idToRef (tokenId x.1) = some ref ∧ Identifies r ref (tokenId x.1))
        ⟨⟨[], ⟨List.nodup_nil, by simp, rfl, by simp⟩⟩, by simp⟩
        fun h st f st' frames _ ⟨⟨ids, htable⟩, hsent⟩ hf hstep => ?_
      obtain ⟨htable', hkeep, hframes⟩ := handleMessage_spec htable hf hstep
      refine ⟨htable', fun x hx => ?_⟩
      rcases List.mem_append.mp hx with hx | hx
      · refine ⟨(hsent x hx).1, fun r hr => ?_⟩
        obtain ⟨ref, href, hid⟩ := (hsent x hx).2 r hr
        exact ⟨ref, hkeep _ _ href, hid⟩
      · rw [List.mem_singleton.mp hx]
        exact ⟨hf, hframes⟩
    refine ⟨hlen, fun x hx r hr => ?_, fun x hx y hy r hr r' hr' => ?_⟩
    · obtain ⟨ref, -, hid⟩ := (hsent x hx).2 r hr
      exact ⟨hid.token.trans (hsent x hx).1.tokenText_tokenId, hid.wellFormed⟩
    · obtain ⟨ref, href, hid⟩ := (hsent x hx).2 r hr
      obtain ⟨ref', href', hid'⟩ := (hsent y hy).2 r' hr'
      rw [hid.ref, hid'.ref, wrBe64_injective.eq_iff,
        (hsent x hx).1.tokenId_eq_iff (hsent y hy).1]
      constructor
      · rintro rfl
        exact htable.injective href href'
      · intro he
        rw [he, href', Option.some.injEq] at href
        exact href.symm
  · exact ⟨book_of_head (by decide) kOuchMsgAck ref orderId side shares hl,
      book_of_head (by decide) kOuchMsgCancel ref orderId side shares hl⟩

/-- An enter request with token 42: a DAY order to buy 5 at 100 in book 7. -/
def enter42 : List UInt8 :=
  79 :: (List.replicate 12 48 ++ [52, 50]) ++ [66, 0, 0, 0, 5, 55] ++ List.replicate 9 32
    ++ [0, 0, 39, 16, 68] ++ List.replicate 13 0 ++ [14]

/-- The cancel request with token 42. -/
def cancel42 : List UInt8 := 88 :: (List.replicate 12 48 ++ [52, 50]) ++ [0, 0, 0, 0]

/-- An engine that accepts an order 42 and cancels it. -/
def calls42 : EngineCalls Unit where
  processAdd _ _ _ _ _ _ _ _ := some ((), [.ok 42])
  processCancel _ _ _ _ := some ((), [.cancelled 42])
  getBook _ _ := ((), default)

/-- An order and its cancel in two sessions: two frames with the same reference. -/
theorem frames_identify_orders_cancel : ∃ st a c,
    run (handleClient calls42) ((), {}) [enter42, cancel42] = some (st, [[[a]], [[c]]]) ∧
      slice a 1 8 = slice c 1 8 ∧ WellFormed a ∧ WellFormed c := by
  have hrun : ∃ st, run (handleClient calls42) ((), {}) [enter42, cancel42]
      = some (st, [[[encodeAccepted 1 42 66 5 7]], [[encodeCanceled 1 42 66 0 7]]]) := ⟨_, rfl⟩
  obtain ⟨st, hrun⟩ := hrun
  have henter : IsRequest enter42 := ⟨Or.inl ⟨rfl, rfl⟩, by decide +kernel⟩
  have hcancel : IsRequest cancel42 := ⟨Or.inr ⟨rfl, rfl⟩, by decide +kernel⟩
  obtain ⟨-, hframes, hrefs⟩ := (frames_identify_orders calls42 ()).1 [[enter42], [cancel42]] st _
    (by simp [henter, hcancel]) hrun
  refine ⟨st, _, _, hrun, ?_, ?_, ?_⟩
  · exact (hrefs (enter42, [encodeAccepted 1 42 66 5 7]) (by simp)
      (cancel42, [encodeCanceled 1 42 66 0 7]) (by simp) _ (by simp) _ (by simp)).mpr rfl
  · exact (hframes (enter42, [encodeAccepted 1 42 66 5 7]) (by simp) _ (by simp)).2
  · exact (hframes (cancel42, [encodeCanceled 1 42 66 0 7]) (by simp) _ (by simp)).2

end TcpTradeServer

end NebulaX
