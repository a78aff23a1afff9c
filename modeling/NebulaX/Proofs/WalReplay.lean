import NebulaX.Proofs.Unstamped
import NebulaX.Proofs.Validity
import NebulaX.Proofs.WalLog

/-!
# `NebulaX.Proofs.WalReplay`: one entry, read back

`recoverFromWal` repeats the entries of the log with code of its own. The recovered engine
is a twin of the live one as long as every entry repeats its call: the same slots, levels
and index, with other sequence numbers.

* `Replayable` is a call whose entry says all that the call does.
* `repeats_of_replayable` is the step: such a call, executed live, and its entry, replayed
  in a twin, end in twins.
-/

set_option autoImplicit false

namespace NebulaX

open NebulaX.Lib

/-! ### A partial cancel of nothing -/

namespace OrderBook

/-- The book has a level at the price of the order in slot `idx`, on its side. -/
def HasLevel (b : OrderBook) (idx : UInt32) : Prop :=
  (b.levels (b.pool.storage idx).side.bookSide).find? (b.pool.storage idx).price ≠ none

/-- A partial cancel of no shares changes nothing, but that it creates a missing level. -/
theorem reduceQtyCancel_zero_iff {b : OrderBook} {idx : UInt32} :
    b.reduceQtyCancel idx 0 = b ↔ b.HasLevel idx := by
  obtain ⟨o, ho⟩ : ∃ o, o = b.pool.storage idx := ⟨_, rfl⟩
  have hwrite : (b.modifyOrder idx fun o => { o with remainingQty := o.remainingQty - 0 }) = b := by
    simp only [modifyOrder, OrderPool.modify, UInt32.sub_zero, Function.update_eq_self]
  have heq : b.reduceQtyCancel idx 0
      = b.putLevel o.side.bookSide o.price (b.levelAt o.side.bookSide o.price) := by
    unfold reduceQtyCancel
    rw [hwrite, reduceLevel, ← ho]
    simp only [UInt32.sub_zero]
  rw [heq, HasLevel, ← ho, putLevel, setLevels, levelAt]
  generalize o.side.bookSide = d
  generalize o.price = price
  cases hf : (b.levels d).find? price with
  | none =>
      refine iff_of_false (fun hb => ?_) (by simp)
      -- the level is there afterwards
      have hfind := SortedMap.find?_insert (b.levels d) price price {}
      rw [if_pos rfl] at hfind
      have hlevels := congrArg (fun b : OrderBook => (b.levels d).find? price) hb
      cases d <;> simp_all [BookLevels.levels, BookLevels.setLevels]
  | some level =>
      refine iff_of_true ?_ (by simp)
      rw [Option.getD_some, SortedMap.insert_of_find?_eq_some hf]
      cases d <;> rfl

end OrderBook

namespace MatchingEngine

/-! ### One entry -/

/-- The entry of the call says all that the call does. An entry has no time in force, so an
order that may not rest must be filled; its side is BUY or SELL, so a caller that passes a byte
without a name gets it back as SELL; a partial cancel is replayed for any user; and the entry of
a replace removes the order under the *new* reference and brings in nothing. -/
def Replayable (e : MatchingEngine) : Call → Prop
  | .add locate orderRef side price quantity userId tif => side.Named ∧ (tif ≠ .day →
      e.logged (.add locate orderRef side price quantity userId tif) ≠ none →
      (e.abs.takerAfterMatch locate (Exchange.incoming orderRef side
        (limitPrice tif side price) quantity userId)).status = .filled)
  | .cancel .. => True
  | .cancelShares _ orderRef _ userId =>
      ∀ π, ∀ o ∈ e.abs.queues π, o.orderId = orderRef → o.userId = userId
  | .replace locate oldRef newRef _ _ _ userId =>
      e.abs.owned locate oldRef userId = none ∧
        ∀ π, ∀ o ∈ e.abs.queues π, o.orderId = newRef → o.userId ≠ userId

/-- The counter after an entry. -/
def bumped (next orderId : UInt64) : UInt64 := if next ≤ orderId then orderId + 1 else next

/-- The engine `d`, twin of the live one before a call, replays the entry of the call and is
again the twin of the live engine `e'`. -/
def Follows (e' d : MatchingEngine) (entry : WalEntry) : Prop :=
  ∃ d', d.replayEntry entry = some d' ∧ Twin e' d' ∧
    d'.nextOrderId = bumped d.nextOrderId entry.orderId

section
variable {e d e' : MatchingEngine} {out : List BinaryResponse}
variable {locate ref userId : UInt64} {side : Side} {price quantity : UInt32}

theorem toUInt16_toUInt64 (h : ¬ kMaxLocate ≤ locate) :
    locate.toUInt16.toUInt64 = locate := by
  have hlt := UInt64.lt_iff_toNat_lt.mp (UInt64.not_le.mp h)
  rw [← UInt64.toNat_inj, UInt16.toNat_toUInt64, UInt64.toNat_toUInt16]
  exact Nat.mod_eq_of_lt hlt

/-- Resting an order: the book it makes is stored, and the rest is counting. -/
theorem restOrder_addOrder {order : Order} {out' : List BinaryResponse}
    (h : e.restOrder locate order out = some (e', out')) :
    ∃ added b, (e.book locate).addOrder order = some (added, b) ∧
      Same (e.putBook locate b) e' := by
  simp only [restOrder, Option.bind_eq_bind, Option.bind_eq_some_iff] at h
  obtain ⟨⟨added, b⟩, hadd, h⟩ := h
  simp only at h
  split at h
  · obtain ⟨rfl, -⟩ := Prod.mk.inj (Option.some.inj h)
    exact ⟨added, b, hadd, Same.count _ _⟩
  · obtain ⟨rfl, -⟩ := Prod.mk.inj (Option.some.inj h)
    exact ⟨added, b, hadd, (Same.count _ _).trans (Same.count _ _)⟩

/-- A reference that does not rest is not found. -/
theorem find_of_absent (h : e.Inv) (hno : e.abs.Absent ref) :
    e.index.find ref = some none := by
  rw [OrderMap.find_eq_lookup h.wf]
  cases hl : e.index.lookup ref with
  | none => rfl
  | some i =>
      obtain ⟨hid, π, hπ⟩ := h.sound ref i hl
      exact absurd hid (hno π _ (List.mem_map.mpr ⟨i, hπ, rfl⟩))

/-- The book of an entry is there: its locate has 16 bits. -/
theorem bookFor_twin (ht : Twin e d) (locate : UInt16) :
    ∃ d₁, d.bookFor locate.toUInt64 = some d₁ ∧ Twin e d₁ ∧ d₁.nextOrderId = d.nextOrderId := by
  rcases bookFor_spec d locate.toUInt64 with ⟨hl', -⟩ | ⟨-, d₁, hopen, hs⟩
  · exact absurd hl' (TcpServer.not_kMaxLocate_le locate)
  · exact ⟨d₁, hopen, ht.trans_same (Same.refl e) hs, (bookFor_keeps hopen).2.1⟩

/-- The order a `NEW` entry stands for is the order that was matched, but for its number. -/
theorem restored_unstamped (e : MatchingEngine) {orderRef : UInt64} (hside : side ≠ .invalid)
    (hnamed : side.Named) (price quantity : UInt32) (userId walSeq : UInt64) :
    (restored { type := 0x01, side := if side = .buy then 0x01 else 0x02,
                locate := locate.toUInt16, price := price, quantity := quantity,
                userId := userId, orderId := orderRef, walSeq := walSeq }).unstamped
      = (e.newOrder orderRef side price quantity userId).unstamped := by
  cases side with
  | invalid => exact absurd rfl hside
  | buy => rfl
  | sell => rfl
  | other => exact hnamed.elim

/-- What a call and its entry, if it has one, make of twins. -/
def Repeats (e e' d : MatchingEngine) (c : Call) : Prop :=
  (e.logged c = none ∧ Twin e' d) ∨ ∃ entry, e.logged c = some entry ∧ Follows e' d entry

/-- The counters do not matter for twins. -/
theorem Twin.passEntry (ht : Twin e d) (entry : WalEntry) : Twin e (d.passEntry entry) :=
  ⟨ht.levelsOf, ht.pool, ht.index⟩

/-- A `NEW` entry whose order does not rest is matched as the live order was, and what is
left rests or not, as it did live. -/
theorem follows_new (ht : Twin e d) {entry : WalEntry} (htype : entry.type = 0x01)
    (hfind : e.index.find entry.orderId = some none) {order : Order}
    (ho : (restored entry).unstamped = order.unstamped) {e₁ : MatchingEngine} {left : Order}
    {frames : List BinaryResponse}
    (hm : e.matchSide entry.locate.toUInt64 order = some (e₁, left, frames))
    (hfilled : left.status = .filled → Same e₁ e')
    (hrests : left.status ≠ .filled → (left.status = .opened ∨ left.status = .partiallyFilled) ∧
      ∃ added b, (e₁.book entry.locate.toUInt64).addOrder left = some (added, b) ∧
        Same (e₁.putBook entry.locate.toUInt64 b) e') :
    Follows e' d entry := by
  obtain ⟨d₁, hopen, ht₁, hid₁⟩ := bookFor_twin ht entry.locate
  obtain ⟨d₂, left', hm₂, ht₂, hleft⟩ := ht₁.matchSide ho hm
  have hstatus : left'.status = left.status := by
    show left'.unstamped.status = left.unstamped.status
    rw [hleft]
  have hid₂ : d₂.nextOrderId = d.nextOrderId := (matchSide_keeps hm₂).2.trans hid₁
  have hentry : d.replayEntry entry
      = (d₁.replayNew entry.locate.toUInt64 entry).map (·.passEntry entry) := by
    have hfind₁ : d₁.index.find entry.orderId = some none := by rw [ht₁.index, hfind]
    simp only [replayEntry, hopen, htype, if_true, OrderBook.findOrder, book, hfind₁,
      Option.bind_eq_bind, Option.bind_some]
    exact Option.map_eq_bind.symm
  by_cases hf : left.status = .filled
  · have hnew : d₁.replayNew entry.locate.toUInt64 entry = some d₂ := by
      simp [replayNew, hm₂, hstatus, hf]
    refine ⟨d₂.passEntry entry, by rw [hentry, hnew]; rfl,
      (ht₂.trans_same (hfilled hf) (Same.refl d₂)).passEntry entry, ?_⟩
    rw [← hid₂]
    rfl
  · obtain ⟨hopened, added, b, hadd, hs⟩ := hrests hf
    obtain ⟨c, hc, ht₃⟩ := ht₂.addOrder hleft hadd
    have hnew : d₁.replayNew entry.locate.toUInt64 entry
        = some (d₂.putBook entry.locate.toUInt64 c) := by
      simp [replayNew, hm₂, hstatus, hopened, hc]
    refine ⟨(d₂.putBook entry.locate.toUInt64 c).passEntry entry, by rw [hentry, hnew]; rfl,
      (ht₃.trans_same hs (Same.refl _)).passEntry entry, ?_⟩
    rw [← hid₂]
    rfl

/-- What follows the match of an order that is filled, or of one that may rest. -/
theorem finishAdd_cases {left : Order} {tif : OrderTif} {out' : List BinaryResponse}
    (hday : left.status ≠ .filled → tif = .day)
    (hopened : left.status ≠ .filled → left.status = .opened ∨ left.status = .partiallyFilled)
    (h : e.finishAdd locate left quantity tif out = some (e', out')) :
    (left.status = .filled → Same e e') ∧
      (left.status ≠ .filled → (left.status = .opened ∨ left.status = .partiallyFilled) ∧
        ∃ added b, (e.book locate).addOrder left = some (added, b) ∧
          Same (e.putBook locate b) e') := by
  unfold finishAdd at h
  by_cases hf : left.status = .filled
  · rw [if_pos hf] at h
    obtain ⟨rfl, -⟩ := Prod.mk.inj (Option.some.inj h)
    exact ⟨fun _ => Same.count _ _, fun hne => absurd hf hne⟩
  · obtain rfl := hday hf
    rw [if_neg hf, if_neg (by decide), if_neg (by decide), if_pos (hopened hf)] at h
    exact ⟨fun hf' => absurd hf' hf, fun _ => ⟨hopened hf, restOrder_addOrder h⟩⟩

/-- A new order and its entry. -/
theorem repeats_add (h : e.Inv) (ht : Twin e d) {orderRef : UInt64} {tif : OrderTif}
    (hnew : e.abs.Absent orderRef)
    (hc : e.Replayable (.add locate orderRef side price quantity userId tif))
    (hexec : e.exec (.add locate orderRef side price quantity userId tif) = some (e', out)) :
    Repeats e e' d (.add locate orderRef side price quantity userId tif) := by
  simp only [exec] at hexec
  rcases processAdd_cases hexec with ⟨hpass, e₁, code, ho, heq⟩ | ⟨hpass, -⟩
  · -- A refused order, or a fill-or-kill order that cannot be filled, is not logged.
    cases heq
    rw [Passes] at hpass
    exact Or.inl ⟨if_neg hpass, ht.trans_same ho.toSame (Same.refl d)⟩
  · obtain ⟨hl, hside, -⟩ := Exchange.refusal_eq_none_iff.mp hpass.1
    obtain ⟨order, e₂, e₃, rfl, hs₂, hm, -, -, -, heq⟩ := h.processAdd_passes hpass
    have ht₂ : Twin e₂ d :=
      (show Twin e.bumpSequence d from ⟨ht.levelsOf, ht.pool, ht.index⟩).trans_same hs₂
        (Same.refl d)
    have hlog : e.logged (.add locate orderRef side price quantity userId tif) = some {
        type := 0x01, side := if side = .buy then 0x01 else 0x02,
        locate := locate.toUInt16, price := limitPrice tif side price,
        quantity := quantity, userId := userId, orderId := orderRef,
        walSeq := e.nextSequence + 1 } := by
      rw [Passes] at hpass
      exact if_pos hpass
    obtain ⟨hfilled, hrests⟩ := finishAdd_cases
      (fun hf => by
        by_contra htif
        exact hf (hc.2 htif (by rw [hlog]; simp)))
      (fun hf => taker_status _ rfl hf) (heq.symm.trans hexec)
    refine Or.inr ⟨_, hlog, follows_new ht₂ rfl ?_ (restored_unstamped e hside hc.1 _ _ _ _)
      (by rw [toUInt16_toUInt64 hl]; exact hm) hfilled ?_⟩
    · rw [hs₂.index]
      exact find_of_absent h hnew
    · rw [toUInt16_toUInt64 hl]
      exact hrests

/-- An entry that is repeated in its book and passed. -/
theorem follows_of_step (ht : Twin e d) {entry : WalEntry}
    (hd : ∀ d₁, d.bookFor entry.locate.toUInt64 = some d₁ → Twin e d₁ → ∃ d₂,
      d.replayEntry entry = some (d₂.passEntry entry) ∧ Twin e' d₂ ∧
        d₂.nextOrderId = d₁.nextOrderId) : Follows e' d entry := by
  obtain ⟨d₁, hopen, ht₁, hid₁⟩ := bookFor_twin ht entry.locate
  obtain ⟨d₂, heq, ht₂, hid₂⟩ := hd d₁ hopen ht₁
  refine ⟨_, heq, ht₂.passEntry entry, ?_⟩
  show bumped d₂.nextOrderId _ = _
  rw [hid₂, hid₁]

/-- A twin finds what the live engine finds, and whose it is. -/
theorem Twin.found (ht : Twin e d) {i : UInt32} (hfind : e.index.find ref = some (some i)) :
    d.index.find ref = some (some i) ∧ (d.pool.storage i).userId = (e.pool.storage i).userId ∧
      (d.pool.storage i).remainingQty = (e.pool.storage i).remainingQty := by
  refine ⟨by rw [ht.index, hfind], ?_, ?_⟩
  · exact congrArg OrderInfo.userId (ht.info i)
  · exact congrArg OrderInfo.remainingQty (ht.info i)

/-- A cancel and its entry. -/
theorem repeats_cancel (h : e.Inv) (ht : Twin e d) (hr : e.abs.Homed locate ref userId)
    (hexec : e.exec (.cancel locate ref userId) = some (e', out)) :
    Repeats e e' d (.cancel locate ref userId) := by
  rcases owned_eq h hr with ⟨hl, i, s, hfind, huser, hi, -⟩ | ⟨-, hmiss⟩
  · -- Both remove the order that the index finds.
    obtain ⟨e₁, hs, heq⟩ := exec_found (c := .cancel locate ref userId) rfl hl hfind huser
    rw [heq] at hexec
    simp only [actOn, Option.bind_eq_bind, Option.bind_eq_some_iff] at hexec
    obtain ⟨b, hrem, hexec⟩ := hexec
    obtain ⟨rfl, -⟩ := Prod.mk.inj (Option.some.inj hexec)
    refine Or.inr ⟨_, by rw [logged, if_neg hl],
      follows_of_step (ht.trans_same hs (Same.refl d)) fun d₁ hopen ht₁ => ?_⟩
    rw [toUInt16_toUInt64 hl] at hopen
    obtain ⟨hfind₁, huser₁, -⟩ := ht₁.found (hs.index ▸ hfind)
    rw [hs.pool, huser] at huser₁
    obtain ⟨c, hc, ht₂⟩ := ht₁.removeOrder hrem
    refine ⟨d₁.putBook locate c, ?_, ht₂, rfl⟩
    have hrem₁ : (d₁.book locate).removeOrderById ref userId = some (true, c) := by
      simp only [book] at hc
      simp [OrderBook.removeOrderById, book, hfind₁, huser₁, hc]
    simp [replayEntry, toUInt16_toUInt64 hl, hopen, hrem₁]
  · obtain ⟨e₁, heq, hs⟩ := exec_missing (c := .cancel locate ref userId) rfl hmiss
    rw [heq, Option.some.injEq, Prod.mk.injEq] at hexec
    obtain ⟨rfl, -⟩ := hexec
    rcases hmiss with hl | hmiss
    · exact Or.inl ⟨by rw [logged, if_pos hl], ht.trans_same hs (Same.refl d)⟩
    · by_cases hl : kMaxLocate ≤ locate
      · exact Or.inl ⟨by rw [logged, if_pos hl], ht.trans_same hs (Same.refl d)⟩
      refine Or.inr ⟨_, by rw [logged, if_neg hl], follows_of_step ht fun d₁ hopen ht₁ => ?_⟩
      rw [toUInt16_toUInt64 hl] at hopen
      refine ⟨d₁.putBook locate (d₁.book locate), ?_,
        ht₁.trans_same hs (Same.putBook_book d₁ locate), rfl⟩
      have hrem₁ : (d₁.book locate).removeOrderById ref userId
          = some (false, d₁.book locate) := by
        rcases hmiss with hfind | ⟨i, hfind, huser⟩
        · rw [← ht₁.index] at hfind
          simp [OrderBook.removeOrderById, book, hfind]
        · obtain ⟨hfind₁, huser₁, -⟩ := ht₁.found hfind
          rw [← huser₁] at huser
          simp [OrderBook.removeOrderById, book, hfind₁, huser]
      simp [replayEntry, toUInt16_toUInt64 hl, hopen, hrem₁]

/-- A partial cancel of no shares changes nothing. -/
theorem reduceQtyCancel_zero (h : e.Inv) {s : BookSide} {i : UInt32}
    (hi : i ∈ e.slots (locate, s)) : (e.book locate).reduceQtyCancel i 0 = e.book locate := by
  obtain ⟨lvl, hlvl, -⟩ := (h.levels (locate, s)).level_of_mem hi
  refine OrderBook.reduceQtyCancel_zero_iff.mpr ?_
  change ((e.book locate).levels (e.pool.storage i).side.bookSide).find? _ ≠ none
  rw [h.bookSide_eq hi]
  exact ne_of_eq_of_ne hlvl (by simp)

/-- A partial cancel by the owner, and its entry. -/
theorem repeats_cancelShares (h : e.Inv) (hv : e.abs.AllValid) (ht : Twin e d) {shares : UInt32}
    (hr : e.abs.Homed locate ref userId)
    (hc : e.Replayable (.cancelShares locate ref shares userId))
    (hexec : e.exec (.cancelShares locate ref shares userId) = some (e', out)) :
    Repeats e e' d (.cancelShares locate ref shares userId) := by
  rcases owned_eq h hr with ⟨hl, i, s, hfind, huser, hi, -⟩ | ⟨-, hmiss⟩
  · obtain ⟨e₁, hs, heq⟩ :=
      exec_found (c := .cancelShares locate ref shares userId) rfl hl hfind huser
    rw [heq] at hexec
    refine Or.inr ⟨_, by rw [logged, if_neg hl],
      follows_of_step (ht.trans_same hs (Same.refl d)) fun d₁ hopen ht₁ => ?_⟩
    rw [toUInt16_toUInt64 hl] at hopen
    obtain ⟨hfind₁, -, hqty₁⟩ := ht₁.found (hs.index ▸ hfind)
    -- It is enough to repeat the change of the book.
    suffices hstep : ∃ d₂, d₁.replayCancelShares locate {
        type := 0x03, locate := locate.toUInt16, quantity := shares, userId := userId,
        orderId := ref, walSeq := e.nextSequence } = some d₂ ∧ Twin e' d₂ ∧
        d₂.nextOrderId = d₁.nextOrderId by
      obtain ⟨d₂, hd₂, ht₂, hid₂⟩ := hstep
      exact ⟨d₂, by simp [replayEntry, toUInt16_toUInt64 hl, hopen, hd₂], ht₂, hid₂⟩
    have hstart : d₁.replayCancelShares locate {
        type := 0x03, locate := locate.toUInt16, quantity := shares, userId := userId,
        orderId := ref, walSeq := e.nextSequence } = if shares = 0 then some d₁
        else if (e₁.pool.storage i).remainingQty ≤ shares then
          ((d₁.book locate).removeOrder i).map (d₁.putBook locate)
        else some (d₁.putBook locate ((d₁.book locate).reduceQtyCancel i shares)) := by
      simp only [replayCancelShares, OrderBook.findOrder, book, hfind₁, hqty₁,
        Option.bind_eq_bind, Option.bind_some]
      split
      · rfl
      · split
        · exact Option.map_eq_bind.symm
        · rfl
    rw [hstart]
    have hne : (e₁.pool.storage i).remainingQty ≠ 0 := by
      rw [hs.pool]
      exact (hv _ _ (List.mem_map.mpr ⟨i, hi, rfl⟩)).remaining
    simp only [actOn] at hexec
    by_cases hz : shares = 0
    · -- The live engine takes off nothing; the entry is passed over.
      subst hz
      rw [if_neg (fun hle => hne (UInt32.le_antisymm hle (UInt32.zero_le))), Option.some.injEq,
        Prod.mk.injEq] at hexec
      obtain ⟨rfl, -⟩ := hexec
      rw [if_pos rfl, reduceQtyCancel_zero (hs.inv h) (hs.mem_slots hi)]
      exact ⟨d₁, rfl, ht₁.trans_same (Same.putBook_book e₁ locate) (Same.refl d₁), rfl⟩
    · rw [if_neg hz]
      split at hexec
      · rename_i hle
        simp only [Option.bind_eq_bind, Option.bind_eq_some_iff] at hexec
        obtain ⟨b, hrem, hexec⟩ := hexec
        obtain ⟨rfl, -⟩ := Prod.mk.inj (Option.some.inj hexec)
        obtain ⟨c, hc, ht₂⟩ := ht₁.removeOrder hrem
        rw [if_pos hle, hc]
        exact ⟨_, rfl, ht₂, rfl⟩
      · rename_i hle
        obtain ⟨rfl, -⟩ := Prod.mk.inj (Option.some.inj hexec)
        rw [if_neg hle]
        exact ⟨_, rfl, ht₁.reduceQtyCancel locate i shares, rfl⟩
  · obtain ⟨e₁, heq, hs⟩ := exec_missing (c := .cancelShares locate ref shares userId) rfl hmiss
    rw [heq, Option.some.injEq, Prod.mk.injEq] at hexec
    obtain ⟨rfl, -⟩ := hexec
    by_cases hl : kMaxLocate ≤ locate
    · exact Or.inl ⟨by rw [logged, if_pos hl], ht.trans_same hs (Same.refl d)⟩
    · -- The order belongs to nobody else, so the index misses it.
      have hfind : e.index.find ref = some none := by
        rcases hmiss.resolve_left hl with hfind | ⟨i, hfind, huser⟩
        · exact hfind
        · rw [OrderMap.find_eq_lookup h.wf, Option.some.injEq] at hfind
          obtain ⟨hid, π, hπ⟩ := h.sound ref i hfind
          exact absurd (hc π _ (List.mem_map.mpr ⟨i, hπ, rfl⟩) hid) huser
      refine Or.inr ⟨_, by rw [logged, if_neg hl], follows_of_step ht fun d₁ hopen ht₁ => ?_⟩
      rw [toUInt16_toUInt64 hl] at hopen
      refine ⟨d₁, ?_, ht₁.trans_same hs (Same.refl d₁), rfl⟩
      rw [← ht₁.index] at hfind
      simp [replayEntry, toUInt16_toUInt64 hl, hopen, replayCancelShares, OrderBook.findOrder,
        book, hfind]

/-- A replace that names no order of its user, and its entry. -/
theorem repeats_replace (h : e.Inv) (ht : Twin e d) {oldRef newRef : UInt64}
    (hr : e.abs.Homed locate oldRef userId)
    (hc : e.Replayable (.replace locate oldRef newRef side price quantity userId))
    (hexec : e.exec (.replace locate oldRef newRef side price quantity userId) = some (e', out)) :
    Repeats e e' d (.replace locate oldRef newRef side price quantity userId) := by
  rcases owned_eq h hr with ⟨-, i, s, -, -, -, howned⟩ | ⟨-, hmiss⟩
  · exact absurd (howned.symm.trans hc.1) (by simp)
  · obtain ⟨e₁, heq, hs⟩ :=
      exec_missing (c := .replace locate oldRef newRef side price quantity userId) rfl hmiss
    rw [heq, Option.some.injEq, Prod.mk.injEq] at hexec
    obtain ⟨rfl, -⟩ := hexec
    by_cases hl : kMaxLocate ≤ locate
    · exact Or.inl ⟨by rw [logged, if_pos hl], ht.trans_same hs (Same.refl d)⟩
    · refine Or.inr ⟨_, by rw [logged, if_neg hl], follows_of_step ht fun d₁ hopen ht₁ => ?_⟩
      rw [toUInt16_toUInt64 hl] at hopen
      refine ⟨d₁, ?_, ht₁.trans_same hs (Same.refl d₁), rfl⟩
      -- The entry names the new reference, and no order of this user has it.
      have hnothing : d₁.replayReplace locate {
          type := 0x04, locate := locate.toUInt16, price := price, quantity := quantity,
          userId := userId, orderId := newRef, walSeq := e.nextSequence } = some d₁ := by
        simp only [replayReplace, OrderBook.findOrder, book, ht₁.index]
        cases hfind : e.index.find newRef with
        | none =>
            rw [OrderMap.find_eq_lookup h.wf] at hfind
            exact absurd hfind (by simp)
        | some found =>
            cases found with
            | none => rfl
            | some i =>
                obtain ⟨-, huser₁, -⟩ := ht₁.found hfind
                rw [OrderMap.find_eq_lookup h.wf, Option.some.injEq] at hfind
                obtain ⟨hid, π, hπ⟩ := h.sound newRef i hfind
                have huser : (e.pool.storage i).userId ≠ userId :=
                  hc.2 π _ (List.mem_map.mpr ⟨i, hπ, rfl⟩) hid
                simp only [Option.bind_eq_bind, Option.bind_some, huser₁, if_neg huser]
                rfl
      simp [replayEntry, toUInt16_toUInt64 hl, hopen, hnothing]

/-- A call and its entry, if it has one, take twins to twins. -/
theorem repeats_of_replayable (h : e.Inv) (hv : e.abs.AllValid) (ht : Twin e d) {c : Call}
    (hf : e.abs.Fresh c) (hr : e.abs.Routed c) (hc : e.Replayable c)
    (hexec : e.exec c = some (e', out)) : Repeats e e' d c := by
  cases c with
  | add => exact repeats_add h ht hf hc hexec
  | cancel => exact repeats_cancel h ht hr hexec
  | cancelShares => exact repeats_cancelShares h hv ht hr hc hexec
  | replace => exact repeats_replace h ht hr hc hexec

end

end MatchingEngine

end NebulaX
