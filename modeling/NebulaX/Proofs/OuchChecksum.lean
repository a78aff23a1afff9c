import NebulaX.Proofs.Ouch
import NebulaX.Proofs.WalLog

/-!
# `NebulaX.Proofs.OuchChecksum`: a frame with a wrong byte

The last byte of a message is the sum of the bytes before it. One changed byte changes the sum
or the last byte, so `ouch_decode_enter` and `ouch_decode_book_req` refuse the message
(`OneByteOff.sum_ne`). A cancel message is not decoded but used as it is: whatever token it
names is cancelled, and `IgnoresToken` says when nothing comes of that.
-/

set_option autoImplicit false

namespace NebulaX

open NebulaX.Lib

namespace Ouch

/-! ### The checksum -/

/-- The last byte is the sum of the bytes before it. -/
def SumRight (f : List UInt8) : Prop := f.getD (f.length - 1) 0 = checksum f (f.length - 1)

instance (f : List UInt8) : Decidable (SumRight f) := inferInstanceAs (Decidable (_ = _))

/-- `f` is `g` with one byte other than the first changed. -/
def OneByteOff (g f : List UInt8) : Prop :=
  ∃ p b, 1 ≤ p ∧ p < g.length ∧ b ≠ g.getD p 0 ∧ f = g.set p b

section
variable {f g : List UInt8}

theorem OneByteOff.length_eq (h : OneByteOff g f) : f.length = g.length := by
  obtain ⟨p, b, -, -, -, rfl⟩ := h
  exact List.length_set

theorem OneByteOff.type_eq (h : OneByteOff g f) : f.getD 0 0 = g.getD 0 0 := by
  obtain ⟨p, b, hp, -, -, rfl⟩ := h
  rw [List.getD_eq_getElem?_getD, List.getD_eq_getElem?_getD, List.getElem?_set_ne (by omega)]

/-- A sum of bytes shows a change of one of them. -/
theorem checksum_set_ne {n p : Nat} {b : UInt8} (hp : p < n) (hn : n ≤ g.length)
    (hb : b ≠ g.getD p 0) : checksum (g.set p b) n ≠ checksum g n := by
  intro heq
  have hlt : p < (g.take n).length := by rw [List.length_take]; omega
  have hget : (g.take n)[p] = g.getD p 0 := by
    rw [List.getElem_take, List.getD_eq_getElem?_getD, List.getElem?_eq_getElem (by omega)]
    rfl
  -- both sums are the sum around the byte plus the byte
  have hold : ((g.take n).map UInt8.toNat).sum = (((g.take n).take p).map UInt8.toNat).sum
      + ((g.getD p 0).toNat + (((g.take n).drop (p + 1)).map UInt8.toNat).sum) := by
    conv_lhs => rw [← List.take_append_drop p (g.take n), List.drop_eq_getElem_cons hlt, hget]
    rw [List.map_append, List.sum_append, List.map_cons, List.sum_cons]
  have hnew : (((g.set p b).take n).map UInt8.toNat).sum
      = (((g.take n).take p).map UInt8.toNat).sum
        + (b.toNat + (((g.take n).drop (p + 1)).map UInt8.toNat).sum) := by
    rw [List.take_set, List.set_eq_take_append_cons_drop, if_pos hlt, List.map_append,
      List.sum_append, List.map_cons, List.sum_cons]
  have hsum := congrArg UInt8.toNat heq
  rw [checksum_toNat, checksum_toNat, hold, hnew] at hsum
  have hb₁ := b.toNat_lt
  have hb₂ := (g.getD p 0).toNat_lt
  exact hb (UInt8.toNat_inj.mp (by omega))

/-- One changed byte is seen. -/
theorem OneByteOff.sum_ne (h : OneByteOff g f) (hg : SumRight g) : ¬ SumRight f := by
  obtain ⟨p, b, hp, hlt, hb, rfl⟩ := h
  unfold SumRight at hg ⊢
  rw [List.length_set]
  rcases Nat.lt_or_ge p (g.length - 1) with hp' | hp'
  · rw [List.getD_eq_getElem?_getD, List.getElem?_set_ne (by omega),
      ← List.getD_eq_getElem?_getD, hg]
    exact (checksum_set_ne hp' (by omega) hb).symm
  · -- the last byte itself
    obtain rfl : p = g.length - 1 := by omega
    have hsum : checksum (g.set (g.length - 1) b) (g.length - 1) = checksum g (g.length - 1) := by
      rw [checksum, List.take_set, List.set_eq_of_length_le (by rw [List.length_take]; omega)]
      rfl
    rw [hsum, ← hg, List.getD_eq_getElem?_getD, List.getElem?_set_self hlt]
    exact hb

end

end Ouch

namespace MatchingEngine

/-! ### A cancel that does nothing -/

/-- A cancel finds nothing to do: nobody counts it, and the book does not exist, or it exists
and nobody logs the call and the index has no order of this user under the reference. -/
def IgnoresCancel (e : MatchingEngine) (locate ref userId : UInt64) : Prop :=
  e.metrics = none ∧ (kMaxLocate ≤ locate ∨ e.wal = none ∧ e.books locate ≠ none ∧
    ∃ found, e.index.find ref = some found ∧ ∀ idx ∈ found, (e.pool.storage idx).userId ≠ userId)

section
variable {e : MatchingEngine} {locate ref userId : UInt64}
variable {r : MatchingEngine × List BinaryResponse}

theorem count_of_metrics_none (h : e.metrics = none) (f : IOCounters → IOCounters) :
    e.count f = e := by
  obtain ⟨books, pool, index, nextOrderId, nextSequence, metrics, wal, tradePool, b, s⟩ := e
  obtain rfl : metrics = none := h
  rfl

theorem log_of_wal_none (h : e.wal = none) (entry : WalEntry) : e.log entry = e := by
  obtain ⟨books, pool, index, nextOrderId, nextSequence, metrics, wal, tradePool, b, s⟩ := e
  obtain rfl : wal = none := h
  rfl

theorem bookFor_of_books_ne_none (hl : ¬ kMaxLocate ≤ locate) (h : e.books locate ≠ none) :
    e.bookFor locate = some e := by
  obtain ⟨b, hb⟩ := Option.ne_none_iff_exists'.mp h
  rw [bookFor, if_neg hl, hb]

theorem putBook_book_of_books_ne_none (h : e.books locate ≠ none) :
    e.putBook locate (e.book locate) = e := by
  obtain ⟨b, hb⟩ := Option.ne_none_iff_exists'.mp h
  have hlev : (e.book locate).toBookLevels = b := by
    show e.levelsOf locate = b
    rw [levelsOf, hb]
    rfl
  rw [putBook, hlev, ← hb, Function.update_eq_self]
  rfl

/-- The two ways through `processCancel`. -/
theorem processCancel_cases (h : e.processCancel locate ref userId = some r) :
    (kMaxLocate ≤ locate ∧
        r = (e.count fun c => { c with cancels := c.cancels + 1 }).reject .orderNotFound) ∨
      ∃ e₁ entry removed b, ¬ kMaxLocate ≤ locate ∧
        (e.count fun c => { c with cancels := c.cancels + 1 }).bookFor locate = some e₁ ∧
        (e₁.book locate).removeOrderById ref userId = some (removed, b) ∧
        r = if removed then (((e₁.log entry).putBook locate b), [.cancelled ref])
          else ((e₁.log entry).putBook locate b).reject .orderNotFound := by
  unfold processCancel at h
  dsimp only at h
  obtain ⟨hl, hnone⟩ | ⟨hl, e₁, hsome, -⟩ :=
    bookFor_spec (e.count fun c => { c with cancels := c.cancels + 1 }) locate
  · rw [hnone] at h
    exact Or.inl ⟨hl, (Option.some.inj h).symm⟩
  · rw [hsome] at h
    simp only [Option.bind_eq_bind, Option.bind_eq_some_iff] at h
    obtain ⟨⟨removed, b⟩, hrem, hr⟩ := h
    refine Or.inr ⟨e₁, { type := 0x02, locate := locate.toUInt16, userId := userId, orderId := ref
                         walSeq := e₁.nextSequence }, removed, b, hl, hsome, hrem, ?_⟩
    cases removed with
    | true | false => exact (Option.some.inj hr).symm

/-- Every cancel is counted. -/
theorem processCancel_cancels (h : e.processCancel locate ref userId = some r) :
    r.1.metrics.map IOCounters.cancels = e.metrics.map fun c => c.cancels + 1 := by
  obtain ⟨-, rfl⟩ | ⟨e₁, entry, removed, b, -, hopen, -, rfl⟩ := processCancel_cases h
  · simp [reject, count, Function.comp_def]
  · have hm := bookFor_metrics hopen
    cases removed with
    | true => simp [log, putBook, hm, count, Function.comp_def]
    | false => simp [log, putBook, reject, hm, count, Function.comp_def]

/-- A cancel builds the book it is addressed to. -/
theorem processCancel_books (h : e.processCancel locate ref userId = some r)
    (hl : ¬ kMaxLocate ≤ locate) :
    r.1.books locate ≠ none := by
  obtain ⟨hl', -⟩ | ⟨e₁, entry, removed, b, -, -, -, rfl⟩ := processCancel_cases h
  · exact absurd hl' hl
  · cases removed <;> simp [putBook, reject, count]

/-- A cancel that is not confirmed has found no order of the user. -/
theorem processCancel_found (h : e.processCancel locate ref userId = some r)
    (hl : ¬ kMaxLocate ≤ locate) (hout : ∀ ref, .cancelled ref ∉ r.2) :
    ∃ found, e.index.find ref = some found ∧
      ∀ idx ∈ found, (e.pool.storage idx).userId ≠ userId := by
  cases exec_named (e := e) (c := .cancel locate ref userId) rfl with
  | missing e₁ _ hmiss _ =>
      rcases hmiss.resolve_left hl with hnone | ⟨i, hi, hother⟩
      · exact ⟨none, hnone, by simp⟩
      · exact ⟨some i, hi, by simpa using hother⟩
  | found e₁ idx _ _ _ _ hr =>
      obtain ⟨b, -, heq⟩ := Option.bind_eq_some_iff.mp (hr.symm.trans h)
      cases heq
      exact absurd List.mem_cons_self (hout ref)
  | stuck _ _ hr => cases hr.symm.trans h

theorem processCancel_ignored_iff :
    (∃ out, e.processCancel locate ref userId = some (e, out) ∧ ∀ r, .cancelled r ∉ out) ↔
      e.IgnoresCancel locate ref userId := by
  constructor
  · rintro ⟨out, h, hout⟩
    refine ⟨?_, ?_⟩
    · -- a counted cancel is seen in the counter
      have hcount := processCancel_cancels h
      cases hm : e.metrics with
      | none => rfl
      | some m => simp [hm] at hcount
    · rw [or_iff_not_imp_left]
      intro hl
      refine ⟨?_, processCancel_books h hl, processCancel_found h hl hout⟩
      -- a logged cancel is seen in the log
      have hwal := exec_wal (c := .cancel locate ref userId) h
      cases hw : e.wal with
      | none => rfl
      | some w =>
          rw [hw, logged, if_neg hl] at hwal
          have htotal := congrArg WalWriter.total (Option.some.inj hwal)
          exact absurd htotal.symm (by simp [WalWriter.append])
  · rintro ⟨hm, hcase⟩
    refine ⟨[.error .orderNotFound], ?_, by simp⟩
    rw [processCancel, count_of_metrics_none hm]
    by_cases hl : kMaxLocate ≤ locate
    · simp only [bookFor, if_pos hl]
      rw [reject, count_of_metrics_none hm]
    · obtain ⟨hw, hb, found, hfind, huser⟩ := hcase.resolve_left hl
      have hrem : (e.book locate).removeOrderById ref userId = some (false, e.book locate) := by
        rw [OrderBook.removeOrderById, show (e.book locate).index.find ref = some found from hfind]
        cases found with
        | none => rfl
        | some idx =>
            have hne : ((e.book locate).pool.storage idx).userId ≠ userId := huser idx rfl
            simp [hne]
      simp only [bookFor_of_books_ne_none hl hb, log_of_wal_none hw, hrem, Option.bind_eq_bind,
        Option.bind_some, putBook_book_of_books_ne_none hb]
      rw [reject, count_of_metrics_none hm]
      rfl

end

end MatchingEngine

namespace TcpTradeServer

open Ouch

/-- Nothing comes of a cancel message that names this order id: the id has its reference
already, and the engine, if the server knows a book for it, ignores the cancel. -/
def IgnoresToken (s : TcpTradeServer) (e : MatchingEngine) (orderId : UInt64) : Prop :=
  s.idToRef orderId ≠ none ∧
    ∀ locate, s.orderLocate orderId = some locate → e.IgnoresCancel locate orderId orderId

/-- The frames sent for the answers to a cancel. -/
def cancelFrames (ref orderId locate : UInt64) (out : List BinaryResponse) : List (List UInt8) :=
  out.filterMap fun a => match a with
    | .cancelled _ => some (encodeCanceled ref orderId 66 0 locate)
    | _ => none

/-- `handleCancel` gives the id a reference if it has none, and asks the engine if it knows a
book for the id. -/
theorem handleCancel_eq (s : TcpTradeServer) (e : MatchingEngine) (orderId : UInt64) :
    handleCancel MatchingEngine.calls e s orderId = match s.orderLocate orderId with
      | none => some ((e, (s.refFor orderId).1), [])
      | some locate => (e.processCancel locate orderId orderId).map fun r =>
          ((r.1, (s.refFor orderId).1), cancelFrames (s.refFor orderId).2 orderId locate r.2) := by
  have hlocate : (s.refFor orderId).1.orderLocate orderId = s.orderLocate orderId := by
    unfold refFor
    split <;> rfl
  unfold handleCancel
  rw [← hlocate]
  obtain ⟨s₁, ref⟩ := s.refFor orderId
  dsimp only
  cases s₁.orderLocate orderId with
  | none => rfl
  | some locate => exact Option.map_eq_bind.symm

theorem refFor_of_some {s : TcpTradeServer} {orderId ref : UInt64}
    (href : s.idToRef orderId = some ref) : s.refFor orderId = (s, ref) := by
  rw [refFor, href]

theorem idToRef_refFor (s : TcpTradeServer) (orderId : UInt64) :
    (s.refFor orderId).1.idToRef orderId = some (s.refFor orderId).2 := by
  unfold refFor
  split
  · assumption
  · exact Function.update_self ..

/-- The cancel of a new id gives it a reference. -/
theorem nextRef_of_handleCancel {s s' : TcpTradeServer} {e e' : MatchingEngine}
    {orderId : UInt64} {frames : List (List UInt8)} (href : s.idToRef orderId = none)
    (h : handleCancel MatchingEngine.calls e s orderId = some ((e', s'), frames)) :
    s'.nextRef = s.nextRef + 1 := by
  have hs' : s' = (s.refFor orderId).1 := by
    rw [handleCancel_eq] at h
    cases hl : s.orderLocate orderId with
    | none =>
        simp only [hl, Option.some.injEq, Prod.mk.injEq] at h
        exact h.1.2.symm
    | some locate =>
        simp only [hl, Option.map_eq_some_iff, Prod.mk.injEq] at h
        obtain ⟨r, -, ⟨-, rfl⟩, -⟩ := h
        rfl
  rw [hs', refFor, href]

/-- The frames of a cancel: none, if it was not confirmed. -/
theorem cancelFrames_eq_nil {out : List BinaryResponse} {ref orderId locate : UInt64} :
    cancelFrames ref orderId locate out = [] ↔ ∀ r, .cancelled r ∉ out := by
  rw [cancelFrames, List.filterMap_eq_nil_iff]
  constructor
  · intro h r hr
    exact absurd (h _ hr) (by simp)
  · intro h a ha
    cases a with
    | cancelled r => exact absurd ha (h r)
    | _ => rfl

theorem handleCancel_ignored_iff {s : TcpTradeServer} {e : MatchingEngine} {orderId : UInt64} :
    handleCancel MatchingEngine.calls e s orderId = some ((e, s), []) ↔
      s.IgnoresToken e orderId := by
  cases href : s.idToRef orderId with
  | none =>
      refine iff_of_false (fun h => ?_) (fun h => h.1 href)
      exact absurd (nextRef_of_handleCancel href h).symm (by simp)
  | some ref =>
      rw [handleCancel_eq, refFor_of_some href, IgnoresToken]
      cases hl : s.orderLocate orderId with
      | none => simp [href]
      | some locate =>
          simp only [href, ne_eq, reduceCtorEq, not_false_eq_true, true_and, Option.some.injEq,
            forall_eq', Option.map_eq_some_iff, Prod.mk.injEq, and_true, cancelFrames_eq_nil]
          rw [← MatchingEngine.processCancel_ignored_iff]
          constructor
          · rintro ⟨⟨e', out⟩, h, rfl, hout⟩
            exact ⟨out, h, hout⟩
          · rintro ⟨out, h, hout⟩
            exact ⟨(e, out), h, rfl, hout⟩

/-- One whole message. -/
theorem handleClient_message {σ : Type} (calls : EngineCalls σ) (st : σ × TcpTradeServer)
    {f : List UInt8} (hlen : msgLen (f.getD 0 0) = some f.length) :
    handleClient calls st f = (handleMessage calls st f).map fun r => (r.1, [r.2]) := by
  cases f with
  | nil => simp [msgLen, kOuchMsgOrder, kOuchMsgCancelReq, kOuchMsgBookReq] at hlen
  | cons type bytes =>
      rw [handleClient, List.length_cons, clientLoop]
      rw [List.getD_cons_zero] at hlen
      simp only [hlen, Nat.lt_irrefl, if_false, List.take_length, List.drop_length]
      cases handleMessage calls st (type :: bytes) with
      | none => rfl
      | some r => rfl

/-- A cancel message is used as it is. -/
theorem handleMessage_cancel {σ : Type} (calls : EngineCalls σ) (st : σ × TcpTradeServer)
    {f : List UInt8} (hx : f.getD 0 0 = kOuchMsgCancelReq) :
    handleMessage calls st f = handleCancel calls st.1 st.2 (tokenId f) := by
  unfold handleMessage
  rw [if_neg (by rw [hx]; decide), if_neg (by rw [hx]; decide)]

/-- A message that is no cancel and has a wrong sum is dropped. -/
theorem handleMessage_of_sum_ne {σ : Type} (calls : EngineCalls σ) (st : σ × TcpTradeServer)
    {f : List UInt8} (hlen : msgLen (f.getD 0 0) = some f.length)
    (htype : f.getD 0 0 ≠ kOuchMsgCancelReq) (hsum : ¬ SumRight f) :
    handleMessage calls st f = some (st, []) := by
  unfold SumRight at hsum
  unfold msgLen at hlen
  unfold handleMessage
  split at hlen
  · rename_i ho
    rw [if_pos ho]
    have hdec : decodeEnter f = none := by
      unfold decodeEnter
      rw [← Option.some.inj hlen] at hsum
      split
      · rfl
      · exact if_pos hsum
    rw [hdec]
  · rename_i ho
    rw [if_neg ho]
    split at hlen
    · rename_i hq
      rw [if_pos hq]
      have hdec : decodeBookReq f = none := by
        unfold decodeBookReq
        rw [← Option.some.inj hlen] at hsum
        split
        · rfl
        · exact if_pos hsum
      rw [hdec]
    · cases hlen

/-- **A corrupted frame.** A message with the right checksum, one byte of it other than the
type changed: it leaves the engine and the tables as they are and nothing is sent, exactly when
it is no cancel message or nothing comes of the token it names now. -/
theorem corrupted_frame (e : MatchingEngine) (s : TcpTradeServer) {g f : List UInt8}
    (hlen : msgLen (g.getD 0 0) = some g.length) (hg : SumRight g) (hf : OneByteOff g f) :
    handleClient MatchingEngine.calls (e, s) f = some ((e, s), [[]]) ↔
      (g.getD 0 0 = kOuchMsgCancelReq → s.IgnoresToken e (tokenId f)) := by
  have hlen' : msgLen (f.getD 0 0) = some f.length := by rw [hf.type_eq, hf.length_eq, hlen]
  rw [handleClient_message _ _ hlen', ← hf.type_eq, ← handleCancel_ignored_iff]
  have hone : ((handleMessage MatchingEngine.calls (e, s) f).map fun r => (r.1, [r.2]))
        = some ((e, s), [[]]) ↔
      handleMessage MatchingEngine.calls (e, s) f = some ((e, s), []) := by
    simp [Option.map_eq_some_iff, Prod.ext_iff]
  rw [hone]
  by_cases hx : f.getD 0 0 = kOuchMsgCancelReq
  · rw [handleMessage_cancel _ _ hx]
    exact ⟨fun h _ => h, fun h => h hx⟩
  · exact iff_of_true (handleMessage_of_sum_ne _ _ hlen' hx (hf.sum_ne hg)) fun h => absurd h hx

/-- An order message with a changed digit of its token. -/
theorem corrupted_frame_order : ∃ e₀, MatchingEngine.ofCapacity 4 none none none = some e₀ ∧
    handleClient MatchingEngine.calls (e₀, {}) (enter42.set 14 51) = some ((e₀, {}), [[]]) := by
  obtain ⟨e₀, h₀⟩ : ∃ e₀, MatchingEngine.ofCapacity 4 none none none = some e₀ := ⟨_, rfl⟩
  refine ⟨e₀, h₀, (corrupted_frame e₀ {} (g := enter42) (by decide) (by decide) ?_).mpr
    fun h => absurd h (by decide)⟩
  exact ⟨14, 51, by decide, by decide, by decide, rfl⟩

/-- The cancel of token 42 with its checksum. -/
def summedCancel42 : List UInt8 := 88 :: (List.replicate 12 48 ++ [52, 50]) ++ [0, 0, 0, 254]

/-- The order message `enter42` for token 43. -/
def enter43 : List UInt8 :=
  79 :: (List.replicate 12 48 ++ [52, 51]) ++ [66, 0, 0, 0, 5, 55] ++ List.replicate 9 32
    ++ [0, 0, 39, 16, 68] ++ List.replicate 13 0 ++ [15]

/-- Token 43 rests. The cancel of 42 with one digit changed cancels 43. -/
theorem corrupted_cancel_acts : ∃ e₀ st frames st' c,
    MatchingEngine.ofCapacity 4 none none none = some e₀ ∧
    handleClient MatchingEngine.calls (e₀, {}) enter43 = some (st, frames) ∧
    msgLen (summedCancel42.getD 0 0) = some summedCancel42.length ∧ SumRight summedCancel42 ∧
    OneByteOff summedCancel42 (summedCancel42.set 14 51) ∧
    handleClient MatchingEngine.calls st (summedCancel42.set 14 51) = some (st', [[c]]) ∧
    (st.1.slots (7, .bid)).map (fun i => (st.1.pool.storage i).orderId) = [43] ∧
    st'.1.slots (7, .bid) = [] := by
  have hrun : ((MatchingEngine.ofCapacity 4 none none none).bind fun e₀ =>
      (handleClient MatchingEngine.calls (e₀, {}) enter43).bind fun r =>
        (handleClient MatchingEngine.calls r.1 (summedCancel42.set 14 51)).map fun r' =>
          (r'.2.map List.length,
            (r.1.1.slots (7, .bid)).map fun i => (r.1.1.pool.storage i).orderId,
            r'.1.1.slots (7, .bid)))
      = some ([1], [43], []) := by decide +kernel
  simp only [Option.bind_eq_some_iff, Option.map_eq_some_iff, Prod.mk.injEq] at hrun
  obtain ⟨e₀, h₀, ⟨st, frames⟩, hst, ⟨st', outs⟩, hst', hlen, hbefore, hafter⟩ := hrun
  obtain ⟨c, rfl⟩ : ∃ c, outs = [[c]] := by
    obtain ⟨out, rfl⟩ : ∃ out, outs = [out] := List.length_eq_one_iff.mp (by
      rw [← List.length_map, hlen]
      rfl)
    obtain ⟨c, rfl⟩ := List.length_eq_one_iff.mp (List.cons.inj hlen).1
    exact ⟨c, rfl⟩
  exact ⟨e₀, st, frames, st', c, h₀, hst, by decide, by decide,
    ⟨14, 51, by decide, by decide, by decide, rfl⟩, hst', hbefore, hafter⟩

end TcpTradeServer

end NebulaX
