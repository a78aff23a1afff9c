import NebulaX.Proofs.OuchChecksum
import NebulaX.Proofs.OuchFields
import NebulaX.Proofs.Runs

/-!
# `NebulaX.Proofs.OuchCancel`: what a cancel message does

The protocol has a cancel message ask for a number of shares, 0 for all of them, and has the
answer carry the side of the order and the quantity that was cancelled. `handleCancel` cancels
the whole order whatever is asked for, and answers with the side `'B'` and the quantity 0.
-/

set_option autoImplicit false

namespace NebulaX

open NebulaX.Lib

/-- The byte of a side on the wire: `'B'` or `'S'`. -/
def BookSide.byte : BookSide → UInt8
  | .bid => 66
  | .ask => 83

namespace Exchange

/-- The shares a request for `n` of them takes off an order; 0 asks for all of them. -/
def cancelledShares (o : OrderInfo) (n : UInt32) : UInt32 :=
  if n = 0 ∨ o.remainingQty ≤ n then o.remainingQty else n

/-- The books after a request for `n` shares of the order. -/
def cancelRequest (x : Exchange) (locate : UInt64) (o : OrderInfo) (n : UInt32) : Exchange :=
  if n = 0 ∨ o.remainingQty ≤ n then x.remove locate o else x.reduce locate o n

end Exchange

namespace TcpTradeServer

open Ouch

/-- The cancel message `f`, taken to ask for `n` shares of the order `o` in the book `locate`,
does that, and is answered by one frame that says so. -/
def DoesAsAsked (e : MatchingEngine) (s : TcpTradeServer) (f : List UInt8) (locate : UInt64)
    (d : BookSide) (o : OrderInfo) (n : UInt32) : Prop :=
  ∃ e' s' ref, s'.idToRef o.orderId = some ref ∧
    handleClient MatchingEngine.calls (e, s) f = some ((e', s'), [[encodeCanceled ref o.orderId
      d.byte (Exchange.cancelledShares o n) locate]]) ∧
    e'.abs.queues = (e.abs.cancelRequest locate o n).queues

/-- What it takes: the order is the one the index finds under the token, the token owns it, the
server has sent it to this book, and its side is `'B'` and it has nothing left. -/
def AskedRight (e : MatchingEngine) (s : TcpTradeServer) (locate : UInt64) (d : BookSide)
    (i : UInt32) : Prop :=
  s.orderLocate (e.pool.storage i).orderId = some locate ∧
    e.index.find (e.pool.storage i).orderId = some (some i) ∧
    (e.pool.storage i).userId = (e.pool.storage i).orderId ∧
    d = .bid ∧ (e.pool.storage i).remainingQty = 0

section
variable {e : MatchingEngine} {s : TcpTradeServer} {locate : UInt64} {d : BookSide} {i : UInt32}
variable {f : List UInt8}

/-- The answer to a cancel tells its side, its quantity and its book. -/
theorem encodeCanceled_inj {ref ref' orderId orderId' : UInt64} {side side' : UInt8}
    {qty qty' : UInt32} {locate' : UInt64} (hl : locate.toNat < 10 ^ 10)
    (hl' : locate'.toNat < 10 ^ 10)
    (h : encodeCanceled ref orderId side qty locate
      = encodeCanceled ref' orderId' side' qty' locate') :
    side = side' ∧ qty = qty' ∧ locate = locate' := by
  obtain ⟨-, hside, hqty⟩ := fields_canceled ref orderId side qty locate
  obtain ⟨-, hside', hqty'⟩ := fields_canceled ref' orderId' side' qty' locate'
  refine ⟨?_, ?_, ?_⟩
  · have hread := hside.read
    rw [h] at hread
    exact List.singleton_injective (hread.symm.trans hside'.read)
  · rw [← rdU32_eq hqty, h, rdU32_eq hqty']
  · have hbook : strtoull (slice (encodeCanceled ref orderId side qty locate) 28 10) = locate :=
      book_of_head (by decide) kOuchMsgCancel ref orderId side qty hl
    rw [h] at hbook
    exact hbook.symm.trans
      (book_of_head (by decide) kOuchMsgCancel ref' orderId' side' qty' hl')

theorem toNat_lt_of_not_kMaxLocate_le (hl : ¬ MatchingEngine.kMaxLocate ≤ locate) :
    locate.toNat < 10 ^ 10 :=
  Nat.lt_trans (UInt64.lt_iff_toNat_lt.mp (UInt64.not_le.mp hl)) (by decide)

theorem eq_bid_of_byte (h : d.byte = 66) : d = .bid := by
  cases d with
  | bid => rfl
  | ask => exact absurd h (by decide)

/-- Nothing is cancelled only if nothing is left. -/
theorem remainingQty_of_cancelledShares {o : OrderInfo} {n : UInt32}
    (h : Exchange.cancelledShares o n = 0) : o.remainingQty = 0 := by
  unfold Exchange.cancelledShares at h
  split at h
  · exact h
  · rename_i hn
    exact absurd (Or.inl h) hn

/-- A cancel that is confirmed has removed the order the index found, which the user owns. -/
theorem processCancel_confirmed {orderId userId ref : UInt64}
    {r : MatchingEngine × List BinaryResponse}
    (h : e.processCancel locate orderId userId = some r) (hc : .cancelled ref ∈ r.2) :
    ¬ MatchingEngine.kMaxLocate ≤ locate ∧ r.2 = [.cancelled orderId] ∧
      ∃ j, e.index.find orderId = some (some j) ∧ (e.pool.storage j).userId = userId := by
  cases MatchingEngine.exec_named (e := e) (c := .cancel locate orderId userId) rfl with
  | missing e₁ _ _ hr =>
      cases hr.symm.trans h
      exact absurd hc (by simp [MatchingEngine.reject])
  | found e₁ j _ hl hfind huser hr =>
      obtain ⟨b, -, heq⟩ := Option.bind_eq_some_iff.mp (hr.symm.trans h)
      cases heq
      exact ⟨hl, rfl, j, hfind, huser⟩
  | stuck _ _ hr => cases hr.symm.trans h

/-- The order the index finds under the reference of a resting order is that order. -/
theorem eq_of_find (h : e.Inv) (hi : i ∈ e.slots (locate, d)) {j : UInt32}
    (hj : e.index.find (e.pool.storage i).orderId = some (some j)) : j = i := by
  have hlook := OrderMap.find_eq_lookup h.wf (e.pool.storage i).orderId
  rw [hj] at hlook
  obtain ⟨hid, π, hmem⟩ := h.sound _ j (Option.some.inj hlook).symm
  exact h.refs _ _ j i hmem hi hid

/-- **A cancel message.** An order rests in the book `locate`, and a cancel message names its
reference: the message does what it asks for, and the answer says so, exactly if the order is a
bid with nothing left that the server and the index know under its own token. -/
theorem cancel_as_asked (h : e.Inv) (s : TcpTradeServer)
    (hl : ¬ MatchingEngine.kMaxLocate ≤ locate) (hi : i ∈ e.slots (locate, d))
    (hx : f.getD 0 0 = kOuchMsgCancelReq) (hlen : f.length = kOuchCancelReqLen)
    (htok : tokenId f = (e.pool.storage i).orderId) (n : UInt32) :
    DoesAsAsked e s f locate d (e.pool.info i) n ↔ AskedRight e s locate d i := by
  have hmsg : handleClient MatchingEngine.calls (e, s) f
      = (handleCancel MatchingEngine.calls e s (e.pool.storage i).orderId).map
        fun r => (r.1, [r.2]) := by
    rw [handleClient_message _ _ (by rw [hx, hlen]; rfl), handleMessage_cancel _ _ hx, htok]
  rw [DoesAsAsked, hmsg, handleCancel_eq]
  constructor
  · rintro ⟨e', s', ref, -, hframe, -⟩
    cases hloc : s.orderLocate (e.pool.storage i).orderId with
    | none => simp [hloc] at hframe
    | some locate' =>
        simp only [hloc, Option.map_map, Option.map_eq_some_iff, Function.comp_apply,
          Prod.mk.injEq, List.cons.injEq, and_true] at hframe
        obtain ⟨r, hr, -, hframe⟩ := hframe
        -- a frame was sent, so the cancel was confirmed
        have hconf : ∃ ref, .cancelled ref ∈ r.2 := by
          by_contra hno
          rw [cancelFrames_eq_nil.mpr fun ref hc => hno ⟨ref, hc⟩] at hframe
          exact absurd hframe (by simp)
        obtain ⟨ref', hconf⟩ := hconf
        obtain ⟨hl', hout, j, hfind, huser⟩ := processCancel_confirmed hr hconf
        obtain rfl := eq_of_find h hi hfind
        -- and what the frame says is 'B' and 0
        rw [hout] at hframe
        obtain ⟨hside, hqty, rfl⟩ := encodeCanceled_inj (toNat_lt_of_not_kMaxLocate_le hl')
          (toNat_lt_of_not_kMaxLocate_le hl) (List.cons.inj hframe).1
        exact ⟨hloc, hfind, huser, eq_bid_of_byte hside.symm,
          remainingQty_of_cancelledShares hqty.symm⟩
  · rintro ⟨hloc, hfind, huser, rfl, hrem⟩
    have hhome := h.homed hi (e.pool.storage i).orderId
    obtain ⟨r, hr, hstep⟩ := MatchingEngine.processCancel_spec h hhome
    have howned : e.abs.owned locate (e.pool.storage i).orderId (e.pool.storage i).orderId
        = some (e.pool.info i) := by
      obtain ⟨-, j, d', hj, -, -, howned⟩ | ⟨-, hmiss⟩ := MatchingEngine.owned_eq h hhome
      · rw [howned, eq_of_find h hi hj]
      · rcases hmiss.resolve_left hl with hno | ⟨j, hj, hne⟩
        · exact absurd (hfind.symm.trans hno) (by simp)
        · rw [eq_of_find h hi hj] at hne
          exact absurd huser hne
    have habs := hstep.abs
    rw [Exchange.cancel, howned] at habs
    obtain ⟨habs, hout⟩ := Prod.mk.inj habs
    have hzero : (e.pool.info i).remainingQty = 0 := hrem
    have hall : n = 0 ∨ (e.pool.info i).remainingQty ≤ n := by
      rw [hzero]
      exact Or.inr UInt32.zero_le
    refine ⟨r.1, (s.refFor (e.pool.storage i).orderId).1, (s.refFor (e.pool.storage i).orderId).2,
      idToRef_refFor s _, ?_, ?_⟩
    · simp only [hloc, hr, Option.map_some, hout]
      rw [Exchange.cancelledShares, if_pos hall, hzero]
      rfl
    · rw [Exchange.cancelRequest, if_pos hall, habs]

end

/-- A bid with nothing left: it was entered and then replaced by itself with quantity 0. -/
theorem cancel_as_asked_empty : ∃ e₀ e₁ e outs out,
    MatchingEngine.ofCapacity 4 none none none = some e₀ ∧
    run MatchingEngine.exec e₀ [.add 7 42 .buy 100 5 42 .day] = some (e₁, outs) ∧
    e₁.exec (.replace 7 42 42 .buy 100 0 42) = some (e, out) ∧ 0 ∈ e.slots (7, .bid) ∧
    DoesAsAsked e { orderLocate := fun _ => some 7 } cancel42 7 .bid (e.pool.info 0) 0 := by
  obtain ⟨e₀, h₀⟩ : ∃ e₀, MatchingEngine.ofCapacity 4 none none none = some e₀ := ⟨_, rfl⟩
  have hrun : ((MatchingEngine.ofCapacity 4 none none none).bind fun e₀ =>
      (run MatchingEngine.exec e₀ [.add 7 42 .buy 100 5 42 .day]).bind fun r =>
        (r.1.exec (.replace 7 42 42 .buy 100 0 42)).map fun r' =>
          ([r.1.slots (7, .bid), r'.1.slots (7, .bid)],
            [(r.1.pool.storage 0).orderId, (r'.1.pool.storage 0).orderId,
              (r'.1.pool.storage 0).userId],
            (r'.1.pool.storage 0).remainingQty, r'.1.index.find 42))
      = some ([[0], [0]], [42, 42, 42], 0, some (some 0)) := by decide +kernel
  rw [h₀, Option.bind_some] at hrun
  simp only [Option.bind_eq_some_iff, Option.map_eq_some_iff, Prod.mk.injEq, List.cons.injEq,
    and_true] at hrun
  obtain ⟨⟨e₁, outs⟩, hadd, ⟨e, out⟩, hrep, ⟨hs₁, hs⟩, ⟨hid₁, hid, huser⟩, hrem, hfind⟩ := hrun
  have hmem₁ : 0 ∈ e₁.slots (7, .bid) := by simp [hs₁]
  have hmem : 0 ∈ e.slots (7, .bid) := by simp [hs]
  have hinv₁ := MatchingEngine.Inv.of_trace (.start h₀)
    (MatchingEngine.trace_of_adds h₀ (by decide) (by decide) hadd)
  -- the replace names the resting order, in its own book
  have hhome := hinv₁.homed hmem₁ 42
  rw [hid₁] at hhome
  have hadm : MatchingEngine.Admissible [] e₁ (.replace 7 42 42 .buy 100 0 42) :=
    ⟨Or.inl rfl, hhome⟩
  have hinv : e.Inv := (MatchingEngine.stepsTo_of_exec hinv₁ hadm hrep).inv
  refine ⟨e₀, e₁, e, outs, out, h₀, hadd, hrep, hmem, ?_⟩
  refine (cancel_as_asked hinv _ (by decide) hmem (by decide) (by decide) ?_ 0).mpr ?_
  · rw [hid]
    decide
  · exact ⟨rfl, hid ▸ hfind, huser.trans hid.symm, rfl, hrem⟩

/-- The order message `enter42` on the other side. -/
def enterSell42 : List UInt8 :=
  79 :: (List.replicate 12 48 ++ [52, 50]) ++ [83, 0, 0, 0, 5, 55] ++ List.replicate 9 32
    ++ [0, 0, 39, 16, 68] ++ List.replicate 13 0 ++ [31]

/-- The cancel of two shares of token 42. -/
def cancelTwo42 : List UInt8 := 88 :: (List.replicate 12 48 ++ [52, 50]) ++ [0, 0, 0, 2]

/-- Five shares are on sale under token 42 and two are to be cancelled: the order is gone, and
the answer says `'B'` and a quantity of 0. -/
theorem partial_cancel_takes_all : ∃ e₀ st frames st' c,
    MatchingEngine.ofCapacity 4 none none none = some e₀ ∧
    handleClient MatchingEngine.calls (e₀, {}) enterSell42 = some (st, frames) ∧
    (st.1.slots (7, .ask)).map st.1.pool.info = [{ userId := 42, orderId := 42, side := .sell
                                                   price := 100, originalQty := 5
                                                   remainingQty := 5 }] ∧
    handleClient MatchingEngine.calls st cancelTwo42 = some (st', [[c]]) ∧
    st'.1.slots (7, .ask) = [] ∧ slice c 23 5 = [66, 0, 0, 0, 0] := by
  have hrun : ((MatchingEngine.ofCapacity 4 none none none).bind fun e₀ =>
      (handleClient MatchingEngine.calls (e₀, {}) enterSell42).bind fun r =>
        (handleClient MatchingEngine.calls r.1 cancelTwo42).map fun r' =>
          ((r.1.1.slots (7, .ask)).map r.1.1.pool.info, r'.1.1.slots (7, .ask),
            r'.2.map fun frames => frames.map fun c => slice c 23 5))
      = some ([{ userId := 42, orderId := 42, side := .sell, price := 100, originalQty := 5
                 remainingQty := 5 }], [], [[[66, 0, 0, 0, 0]]]) := by decide +kernel
  simp only [Option.bind_eq_some_iff, Option.map_eq_some_iff, Prod.mk.injEq] at hrun
  obtain ⟨e₀, h₀, ⟨st, frames⟩, hst, ⟨st', outs⟩, hst', hbefore, hafter, hframes⟩ := hrun
  obtain ⟨out, rfl, hout⟩ := List.map_eq_singleton_iff.mp hframes
  obtain ⟨c, rfl, hc⟩ := List.map_eq_singleton_iff.mp hout
  exact ⟨e₀, st, frames, st', c, h₀, hst, hbefore, hst', hafter, hc⟩

end TcpTradeServer

end NebulaX
