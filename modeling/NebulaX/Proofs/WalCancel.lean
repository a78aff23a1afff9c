import NebulaX.Proofs.WalReplay

/-!
# `NebulaX.Proofs.WalCancel`: the entry of a partial cancel

`processCancelShares` logs before it looks for the order and its owner, and `recoverFromWal`
repeats the entry with guards of its own. Both act on one book, `cancelLive` and
`cancelReplayed` here, and both are compared on arbitrary engines: no invariant is assumed.

The replay asks for no owner, and the live call knows no zero shares. `RepeatsCancel` is what is
left: an owner whose request changes something, or a stranger whose request would change nothing.
-/

set_option autoImplicit false

namespace NebulaX

open NebulaX.Lib

/-! ### One book -/

namespace OrderBook

/-- What `processCancelShares` does to its book. -/
def cancelLive (b : OrderBook) (ref : UInt64) (shares : UInt32) (userId : UInt64) :
    Option OrderBook := do
  match ← b.findOrder ref with
  | none => return b
  | some idx =>
      if (b.pool.storage idx).userId ≠ userId then return b
      else if (b.pool.storage idx).remainingQty ≤ shares then b.removeOrder idx
      else return b.reduceQtyCancel idx shares

/-- What the replay of the entry does to the book. -/
def cancelReplayed (b : OrderBook) (ref : UInt64) (shares : UInt32) : Option OrderBook := do
  match ← b.findOrder ref with
  | none => return b
  | some idx =>
      if shares = 0 then return b
      else if (b.pool.storage idx).remainingQty ≤ shares then b.removeOrder idx
      else return b.reduceQtyCancel idx shares

section
variable {b b' : OrderBook} {idx : UInt32}

theorem unlink_freeHead (b : OrderBook) (idx : UInt32) :
    (b.unlink idx).pool.freeHead = b.pool.freeHead := by
  unfold unlink
  dsimp only
  split <;> split <;> rfl

/-- A slot whose level is missing is left where it is. -/
theorem removeOrder_of_not_hasLevel (h : ¬ b.HasLevel idx) : b.removeOrder idx = some b := by
  rw [HasLevel, not_not] at h
  rw [removeOrder, removeFrom, h]

/-- A removal gives the slot back. -/
theorem removeOrder_ne (h : b.HasLevel idx) (hrem : b.removeOrder idx = some b') : b' ≠ b := by
  obtain ⟨level, hlevel⟩ := Option.ne_none_iff_exists'.mp h
  simp only [removeOrder, removeFrom, hlevel, Option.bind_eq_bind, Option.bind_eq_some_iff] at hrem
  obtain ⟨index, -, hb'⟩ := hrem
  rintro rfl
  -- every deallocation moves the tag of the free list
  have htag := congrArg (fun b : OrderBook => b.pool.freeHead.tag) (Option.some.inj hb')
  split at htag
  all_goals
    change (b'.unlink idx).pool.freeHead.tag + 1 = b'.pool.freeHead.tag at htag
    rw [unlink_freeHead] at htag
    exact absurd htag (by simp)

/-- A partial cancel of some shares is seen in the order. -/
theorem reduceQtyCancel_ne {shares : UInt32} (h : shares ≠ 0) :
    b.reduceQtyCancel idx shares ≠ b := by
  intro heq
  have hqty := congrArg (fun b : OrderBook => (b.pool.storage idx).remainingQty) heq
  simp [reduceQtyCancel, reduceLevel, putLevel, setLevels, modifyOrder, OrderPool.modify] at hqty
  exact h hqty

/-- The order found under `ref` is treated alike by the live call and by the replay. -/
def RepeatsCancel (b : OrderBook) (ref : UInt64) (shares : UInt32) (userId : UInt64) : Prop :=
  ∀ idx, b.findOrder ref = some (some idx) →
    if (b.pool.storage idx).userId = userId then
      shares = 0 → ((b.pool.storage idx).remainingQty = 0 ↔ ¬ b.HasLevel idx)
    else shares = 0 ∨ ((b.pool.storage idx).remainingQty ≤ shares ∧ ¬ b.HasLevel idx)

/-- The replay makes of the book what the live call made of it. -/
theorem cancelReplayed_eq_iff {ref : UInt64} {shares : UInt32} {userId : UInt64}
    (hlive : b.cancelLive ref shares userId = some b') :
    b.cancelReplayed ref shares = some b' ↔ b.RepeatsCancel ref shares userId := by
  unfold cancelLive at hlive
  unfold cancelReplayed RepeatsCancel
  rcases hfind : b.findOrder ref with _ | _ | idx
  · simp [hfind] at hlive
  · simp only [hfind, Option.bind_eq_bind, Option.bind_some, pure, Option.some.injEq] at hlive
    simp [hlive]
  simp only [hfind, Option.bind_eq_bind, Option.bind_some, pure] at hlive ⊢
  simp only [Option.some.injEq, forall_eq']
  by_cases huser : (b.pool.storage idx).userId = userId
  · rw [if_neg (not_not.mpr huser)] at hlive
    rw [if_pos huser]
    by_cases hz : shares = 0
    · -- the replay passes over the entry
      subst hz
      rw [if_pos rfl, Option.some.injEq]
      simp only [UInt32.le_zero_iff, forall_const] at hlive ⊢
      by_cases hq : (b.pool.storage idx).remainingQty = 0
      · rw [if_pos hq] at hlive
        by_cases hl : b.HasLevel idx
        · exact iff_of_false (removeOrder_ne hl hlive).symm fun h => h.mp hq hl
        · rw [removeOrder_of_not_hasLevel hl, Option.some.injEq] at hlive
          exact iff_of_true hlive (iff_of_true hq hl)
      · rw [if_neg hq, Option.some.injEq] at hlive
        rw [← hlive, eq_comm, reduceQtyCancel_zero_iff]
        exact ⟨fun hl => iff_of_false hq (not_not.mpr hl),
          fun h => not_not.mp fun hl => hq (h.mpr hl)⟩
    · rw [if_neg hz]
      exact iff_of_true hlive fun h => absurd h hz
  · -- the live call has left the book alone
    rw [if_pos huser, Option.some.injEq] at hlive
    rw [if_neg huser, ← hlive]
    by_cases hz : shares = 0
    · rw [if_pos hz]
      exact iff_of_true rfl (Or.inl hz)
    rw [if_neg hz]
    by_cases hle : (b.pool.storage idx).remainingQty ≤ shares
    · rw [if_pos hle]
      by_cases hl : b.HasLevel idx
      · refine iff_of_false (fun hrem => removeOrder_ne hl hrem rfl) ?_
        rintro (h | h)
        · exact hz h
        · exact h.2 hl
      · exact iff_of_true (removeOrder_of_not_hasLevel hl) (Or.inr ⟨hle, hl⟩)
    · rw [if_neg hle]
      refine iff_of_false (fun hred => reduceQtyCancel_ne hz (Option.some.inj hred)) ?_
      rintro (h | h)
      · exact hz h
      · exact hle h.1

end

end OrderBook

namespace MatchingEngine

section
variable {e e' : MatchingEngine} {locate ref userId : UInt64} {shares : UInt32}
variable {out : List BinaryResponse} {w : WalWriter} {entry : WalEntry}

/-- A log entry is determined by what `append` made of the log. -/
theorem append_injective (w : WalWriter) : Function.Injective w.append := by
  intro entry entry' h
  have hbase := congrFun (congrArg WalWriter.base h) (w.total.toNat % walEntries)
  simpa [WalWriter.append] using hbase

/-- Two operations on one book leave the same engine exactly when they leave the same book. -/
theorem sameBooks_putBook_iff {d : MatchingEngine} (h : SameBooks e d) {b b' : OrderBook} :
    SameBooks (e.putBook locate b) (d.putBook locate b') ↔ b' = b := by
  constructor
  · rintro ⟨hlevels, hpool, hindex⟩
    rw [levelsOf_putBook, levelsOf_putBook] at hlevels
    have hlevel := congrFun hlevels locate
    simp only [Function.update_self] at hlevel
    obtain ⟨levels, pool, index⟩ := b
    obtain ⟨levels', pool', index'⟩ := b'
    obtain rfl : levels' = levels := hlevel
    obtain rfl : pool' = pool := hpool
    obtain rfl : index' = index := hindex
    rfl
  · rintro rfl
    exact ⟨by rw [levelsOf_putBook, levelsOf_putBook, h.levelsOf], rfl, rfl⟩

/-- The live call works on one book. -/
theorem processCancelShares_book (hl : ¬ kMaxLocate ≤ locate)
    (h : e.processCancelShares locate ref shares userId = some (e', out)) :
    ∃ b, (e.book locate).cancelLive ref shares userId = some b ∧
      SameBooks (e.putBook locate b) e' := by
  unfold OrderBook.cancelLive
  rw [show (e.book locate).findOrder ref = e.index.find ref from rfl,
    show (e.book locate).pool = e.pool from rfl]
  cases exec_named (e := e) (c := .cancelShares locate ref shares userId) rfl with
  | missing e₁ hs hmiss hr =>
      cases hr.symm.trans h
      refine ⟨e.book locate, ?_, (Same.putBook_book e locate).sameBooks.symm.trans
        (hs.toSame.trans (Same.count e₁ _)).sameBooks⟩
      rcases hmiss.resolve_left hl with hnone | ⟨i, hi, hother⟩
      · simp [hnone]
      · simp [hi, hother]
  | found e₁ idx hs _ hfind huser hr =>
      have hput {b : OrderBook} : SameBooks (e.putBook locate b) (e₁.putBook locate b) :=
        (sameBooks_putBook_iff hs.toSame.sameBooks).mpr rfl
      have hact := hr.symm.trans h
      simp only [actOn, hs.pool, hs.toSame.book] at hact
      simp only [hfind, Option.bind_eq_bind, Option.bind_some, huser, ne_eq, not_true_eq_false,
        if_false]
      split at hact
      · rename_i hle
        obtain ⟨b, hrem, heq⟩ := Option.bind_eq_some_iff.mp hact
        cases heq
        rw [if_pos hle]
        exact ⟨b, hrem, hput⟩
      · rename_i hle
        cases hact
        rw [if_neg hle]
        exact ⟨_, rfl, hput⟩
  | stuck _ _ hr => cases hr.symm.trans h

/-- The replay of the entry works on the same book. -/
theorem replayEntry_cancel (hl : ¬ kMaxLocate ≤ locate) (seq : UInt64) :
    Option.Rel (fun b d => SameBooks (e.putBook locate b) d)
      ((e.book locate).cancelReplayed ref shares)
      (e.replayEntry { type := 0x03, locate := locate.toUInt16, quantity := shares
                       userId := userId, orderId := ref, walSeq := seq }) := by
  obtain ⟨hl', -⟩ | ⟨-, e₁, hopen, hs⟩ := bookFor_spec e locate
  · exact absurd hl' hl
  have hleft : SameBooks (e.putBook locate (e.book locate)) e₁ :=
    (Same.putBook_book e locate).sameBooks.symm.trans hs.sameBooks
  have hput {b : OrderBook} : SameBooks (e.putBook locate b) (e₁.putBook locate b) :=
    (sameBooks_putBook_iff hs.sameBooks).mpr rfl
  -- the counters at the end of the round are not the books'
  have hpass {b : OrderBook} {d : MatchingEngine} {entry : WalEntry}
      (h : SameBooks (e.putBook locate b) d) : SameBooks (e.putBook locate b) (d.passEntry entry) :=
    ⟨h.levelsOf, h.pool, h.index⟩
  simp only [replayEntry, toUInt16_toUInt64 hl, hopen, replayCancelShares, hs.book, hs.pool]
  unfold OrderBook.cancelReplayed
  rcases hfind : (e.book locate).findOrder ref with _ | _ | idx
  · simp
  · exact .some (hpass hleft)
  simp only [Option.bind_eq_bind, Option.bind_some, pure]
  by_cases hz : shares = 0
  · simpa [hz] using hpass hleft
  by_cases hle : (e.pool.storage idx).remainingQty ≤ shares
  · have hle' : ((e.book locate).pool.storage idx).remainingQty ≤ shares := hle
    cases hrem : (e.book locate).removeOrder idx with
    | none => simp [hz, hle, hle']
    | some b => simpa [hz, hle, hle', hrem] using hpass hput
  · have hle' : ¬ ((e.book locate).pool.storage idx).remainingQty ≤ shares := hle
    simpa [hz, hle, hle'] using hpass hput

/-- **Replay of a partial cancel.** For every engine and every call that returned and appended
`entry`: the replay of `entry` in the engine before the call gives the books the live call
gave, exactly when the order the index finds under the reference is treated alike. -/
theorem replay_partial_cancel
    (hlive : e.processCancelShares locate ref shares userId = some (e', out))
    (hw : e.wal = some w) (hw' : e'.wal = some (w.append entry)) :
    (∃ d, e.replayEntry entry = some d ∧ SameBooks e' d) ↔
      (e.book locate).RepeatsCancel ref shares userId := by
  have hwal : e'.wal = walAfter e.wal (e.logged (.cancelShares locate ref shares userId)) :=
    exec_wal (c := .cancelShares locate ref shares userId) hlive
  rw [hw, hw', walAfter, Option.map_some, Option.some.injEq, logged] at hwal
  -- a call that is answered for want of a book appends nothing
  have hl : ¬ kMaxLocate ≤ locate := by
    intro hl
    rw [if_pos hl] at hwal
    have htotal : w.total + 1 = w.total := congrArg WalWriter.total hwal
    simp at htotal
  rw [if_neg hl] at hwal
  have hentry := append_injective w hwal
  obtain ⟨b, hb, hsame⟩ := processCancelShares_book hl hlive
  have hreplay := @replayEntry_cancel e locate ref userId shares hl e.nextSequence
  rw [← hentry] at hreplay
  rw [← OrderBook.cancelReplayed_eq_iff hb]
  constructor
  · rintro ⟨d, hd, hsame'⟩
    rw [hd] at hreplay
    cases hb' : (e.book locate).cancelReplayed ref shares with
    | none =>
        rw [hb'] at hreplay
        cases hreplay
    | some b' =>
        rw [hb'] at hreplay
        obtain ⟨hput⟩ := hreplay
        rw [(sameBooks_putBook_iff ⟨rfl, rfl, rfl⟩).mp ((hsame.trans hsame').trans hput.symm)]
  · intro hb'
    rw [hb'] at hreplay
    cases hd : e.replayEntry entry with
    | none =>
        rw [hd] at hreplay
        cases hreplay
    | some d =>
        rw [hd] at hreplay
        obtain ⟨hput⟩ := hreplay
        exact ⟨d, rfl, hsame.symm.trans hput⟩

/-- A partial cancel of an engine with a log appends one entry. -/
theorem exists_entry (hwal : e.wal ≠ none)
    (hlive : e.processCancelShares locate ref shares userId = some (e', out))
    (hl : ¬ kMaxLocate ≤ locate) :
    ∃ w entry, e.wal = some w ∧ e'.wal = some (w.append entry) ∧
      entry = { type := 0x03, locate := locate.toUInt16, quantity := shares
                userId := userId, orderId := ref, walSeq := e.nextSequence } := by
  obtain ⟨w, hw⟩ := Option.ne_none_iff_exists'.mp hwal
  have hwal' : e'.wal = walAfter e.wal (e.logged (.cancelShares locate ref shares userId)) :=
    exec_wal (c := .cancelShares locate ref shares userId) hlive
  rw [hw, logged, if_neg hl] at hwal'
  exact ⟨w, _, hw, hwal', rfl⟩

end

/-- The owner takes three of five shares off, and so does the replay. -/
theorem replay_partial_cancel_owner : ∃ e₀ e outs e' w entry,
    ofCapacity 4 none (some .fresh) none = some e₀ ∧
    run exec e₀ [.add 0 7 .buy 100 5 1 .day] = some (e, outs) ∧
    e.processCancelShares 0 7 3 1 = some (e', [.ok 7]) ∧
    e.wal = some w ∧ e'.wal = some (w.append entry) ∧
    ∃ d, e.replayEntry entry = some d ∧ SameBooks e' d := by
  have hrun : ((ofCapacity 4 none (some .fresh) none).bind fun e₀ =>
      (run exec e₀ [.add 0 7 .buy 100 5 1 .day]).bind fun r =>
        (r.1.processCancelShares 0 7 3 1).map fun r' =>
          (r'.2, r.1.wal.isSome, r.1.index.find 7, (r.1.pool.storage 0).userId))
      = some ([.ok 7], true, some (some 0), 1) := by decide +kernel
  simp only [Option.bind_eq_some_iff, Option.map_eq_some_iff, Prod.mk.injEq] at hrun
  obtain ⟨e₀, h₀, ⟨e, outs⟩, hrun, ⟨e', out⟩, hlive, rfl, hwal, hfind, huser⟩ := hrun
  obtain ⟨w, entry, hw, hw', -⟩ :=
    exists_entry (Option.isSome_iff_ne_none.mp hwal) hlive (by decide)
  refine ⟨e₀, e, outs, e', w, entry, h₀, hrun, hlive, hw, hw',
    (replay_partial_cancel hlive hw hw').mpr fun idx hidx => ?_⟩
  obtain rfl : 0 = idx := Option.some.inj (Option.some.inj (hfind.symm.trans hidx))
  rw [if_pos (show ((e.book 0).pool.storage 0).userId = 1 from huser)]
  exact fun h => absurd h (by decide)

/-- A stranger asks to take three of five shares off. The answer is that there is no such order;
the replay takes them off. -/
theorem stranger_cancels : ∃ e₀ e outs e' w entry d,
    ofCapacity 4 none (some .fresh) none = some e₀ ∧
    run exec e₀ [.add 0 7 .buy 100 5 1 .day] = some (e, outs) ∧
    e.processCancelShares 0 7 3 2 = some (e', [.error .orderNotFound]) ∧
    e.wal = some w ∧ e'.wal = some (w.append entry) ∧ e.replayEntry entry = some d ∧
    (e'.abs.queues (0, .bid)).map (fun o => (o.orderId, o.remainingQty)) = [(7, 5)] ∧
    (d.abs.queues (0, .bid)).map (fun o => (o.orderId, o.remainingQty)) = [(7, 2)] := by
  have hrun : ((ofCapacity 4 none (some .fresh) none).bind fun e₀ =>
      (run exec e₀ [.add 0 7 .buy 100 5 1 .day]).bind fun r =>
        (r.1.processCancelShares 0 7 3 2).bind fun r' =>
          (r.1.replayEntry { type := 0x03, locate := 0, quantity := 3, userId := 2, orderId := 7
                             walSeq := r.1.nextSequence }).map fun d =>
            (r'.2, r.1.wal.isSome,
              [r'.1, d].map fun e => (e.abs.queues (0, .bid)).map fun o =>
                (o.orderId, o.remainingQty)))
      = some ([.error .orderNotFound], true, [[(7, 5)], [(7, 2)]]) := by decide +kernel
  simp only [Option.bind_eq_some_iff, Option.map_eq_some_iff, Prod.mk.injEq, List.map_cons,
    List.map_nil, List.cons.injEq, and_true] at hrun
  obtain ⟨e₀, h₀, ⟨e, outs⟩, hrun, ⟨e', out⟩, hlive, d, hd, rfl, hwal, hq, hq'⟩ := hrun
  obtain ⟨w, entry, hw, hw', hentry⟩ :=
    exists_entry (Option.isSome_iff_ne_none.mp hwal) hlive (by decide)
  exact ⟨e₀, e, outs, e', w, entry, d, h₀, hrun, hlive, hw, hw', hentry ▸ hd, hq, hq'⟩

end MatchingEngine

end NebulaX
