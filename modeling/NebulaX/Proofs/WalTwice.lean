import NebulaX.Proofs.WalRuns

/-!
# `NebulaX.Proofs.WalTwice`: the log, read twice

`recoverFromWal` skips a `NEW` entry whose order rests. That is all it does for being called
twice: the entry of an order that was filled or cancelled is executed again, and so is every
cancel that finds its order.

* `Inert` is an entry that can do nothing to an engine.
* `replay_twice`: if no entry can do anything to the recovered engine, the second call leaves
  the books as they are, after every entry.
* `replay_trades_twice`: an order that was filled trades again.
-/

set_option autoImplicit false

namespace NebulaX

open NebulaX.Lib

namespace MatchingEngine

/-- The entry finds nothing to do: a `NEW` entry finds its order resting, and an entry of
another kind finds no order that it may change. -/
structure Inert (e : MatchingEngine) (entry : WalEntry) : Prop where
  new : entry.type = 0x01 → ∃ i, e.index.find entry.orderId = some (some i)
  removal : entry.type = 0x02 ∨ entry.type = 0x04 → e.Misses entry.orderId entry.userId
  shares : entry.type = 0x03 → e.index.find entry.orderId = some none ∨
    entry.quantity = 0 ∧ ∃ i, e.index.find entry.orderId = some (some i)

section
variable {e d : MatchingEngine} {entry : WalEntry}

/-- What a twin does not find either. -/
theorem Twin.misses (ht : Twin e d) {ref userId : UInt64} (hmiss : e.Misses ref userId) :
    d.Misses ref userId := by
  rcases hmiss with hfind | ⟨i, hfind, huser⟩
  · exact Or.inl (by rw [ht.index, hfind])
  · obtain ⟨hfind', huser', -⟩ := ht.found hfind
    exact Or.inr ⟨i, hfind', by rw [huser']; exact huser⟩

/-- An entry that is inert in an engine changes no book of its twins. -/
theorem Inert.replay (h : e.Inert entry) (ht : Twin e d) :
    ∃ d', d.replayEntry entry = some d' ∧ Twin e d' := by
  obtain ⟨d₁, hopen, ht₁, -⟩ := bookFor_twin ht entry.locate
  simp only [replayEntry, hopen]
  by_cases h₁ : entry.type = 0x01
  · -- The order rests: `continue`.
    obtain ⟨i, hfind⟩ := h.new h₁
    refine ⟨d₁, ?_, ht₁⟩
    simp [h₁, OrderBook.findOrder, book, ht₁.index, hfind]
  · by_cases h₂ : entry.type = 0x02
    · refine ⟨(d₁.putBook entry.locate.toUInt64 (d₁.book entry.locate.toUInt64)).passEntry entry,
        ?_, (ht₁.trans_same (Same.refl e) (Same.putBook_book d₁ _)).passEntry entry⟩
      have hrem : (d₁.book entry.locate.toUInt64).removeOrderById entry.orderId entry.userId
          = some (false, d₁.book entry.locate.toUInt64) := by
        rcases ht₁.misses (h.removal (Or.inl h₂)) with hfind | ⟨i, hfind, huser⟩
        · simp [OrderBook.removeOrderById, book, hfind]
        · simp [OrderBook.removeOrderById, book, hfind, huser]
      simp [h₂, hrem]
    · refine ⟨d₁.passEntry entry, ?_, ht₁.passEntry entry⟩
      by_cases h₃ : entry.type = 0x03
      · rcases h.shares h₃ with hfind | ⟨hzero, i, hfind⟩
        · simp [h₃, replayCancelShares, OrderBook.findOrder, book, ht₁.index, hfind]
        · simp [h₃, replayCancelShares, OrderBook.findOrder, book, ht₁.index, hfind, hzero]
      · by_cases h₄ : entry.type = 0x04
        · rcases ht₁.misses (h.removal (Or.inr h₄)) with hfind | ⟨i, hfind, huser⟩
          · simp [h₄, replayReplace, OrderBook.findOrder, book, hfind]
          · simp [h₄, replayReplace, OrderBook.findOrder, book, hfind, huser]
        · simp [h₁, h₂, h₃, h₄]

/-- Inert entries, one after the other. -/
theorem replayAll_inert {log : List WalEntry} (h : ∀ entry ∈ log, e.Inert entry)
    (ht : Twin e d) : ∃ d', d.replayAll log = some d' ∧ Twin e d' := by
  induction log generalizing d with
  | nil => exact ⟨d, rfl, ht⟩
  | cons entry log ih =>
      obtain ⟨d₁, hd₁, ht₁⟩ := (h entry List.mem_cons_self).replay ht
      obtain ⟨d₂, hd₂, ht₂⟩ := ih (fun x hx => h x (List.mem_cons_of_mem _ hx)) ht₁
      refine ⟨d₂, ?_, ht₂⟩
      rw [replayAll, List.foldlM_cons, hd₁]
      exact hd₂

/-- Reading the log again. If every entry of the log is inert in an engine, the one that the
first call recovered or any other, the call leaves all books as they are, however far it
reads. -/
theorem replay_twice {reader : WalReader}
    (hinert : ∀ i < min reader.count walEntries, d.Inert (reader.base i)) {n : Nat}
    (hn : n ≤ reader.count) :
    ∃ d', d.recoverFromWal (some ⟨reader.base, n⟩) = some d' ∧ ∀ locate, SameBook locate d' d := by
  have hall : ∀ entry ∈ (List.range' 0 (min n walEntries)).map reader.base, d.Inert entry := by
    intro entry hentry
    obtain ⟨i, hi, rfl⟩ := List.mem_map.mp hentry
    have hlt := (List.mem_range'_1.mp hi).2
    exact hinert i (by omega)
  obtain ⟨d', hd', ht⟩ := replayAll_inert hall (Twin.refl d)
  refine ⟨d'.countPool, ?_, (ht.trans_same (Same.refl d) (Same.count d' _)).sameBook⟩
  rw [recoverFromWal, replayLoop_eq (by simp only; omega), hd']
  rfl

/-- A bid of 10 and an ask of 4 that it fills. After the first recovery 6 are left of the bid;
the second one executes the ask again and 2 are left. -/
theorem replay_trades_twice : ∃ e₀ r w d d',
    ofCapacity 4 none (some .fresh) none = some e₀ ∧
    run exec e₀ [.add 0 1 .buy 100 10 1 .day, .add 0 2 .sell 100 4 2 .day] = some r ∧
    r.1.wal = some w ∧ e₀.recoverFromWal (some ⟨w.base, 2⟩) = some d ∧
    d.recoverFromWal (some ⟨w.base, 2⟩) = some d' ∧
    (d.slots (0, .bid)).map (fun i => ((d.pool.storage i).orderId,
      (d.pool.storage i).remainingQty)) = [(1, 6)] ∧
    (d'.slots (0, .bid)).map (fun i => ((d'.pool.storage i).orderId,
      (d'.pool.storage i).remainingQty)) = [(1, 2)] := by
  have hrun : ((ofCapacity 4 none (some .fresh) none).bind fun e₀ =>
      (run exec e₀ [.add 0 1 .buy 100 10 1 .day, .add 0 2 .sell 100 4 2 .day]).bind fun r =>
      r.1.wal.bind fun w => (e₀.recoverFromWal (some ⟨w.base, 2⟩)).bind fun d =>
      (d.recoverFromWal (some ⟨w.base, 2⟩)).map fun d' =>
        ((d.slots (0, .bid)).map (fun i => ((d.pool.storage i).orderId,
          (d.pool.storage i).remainingQty)),
        (d'.slots (0, .bid)).map fun i => ((d'.pool.storage i).orderId,
          (d'.pool.storage i).remainingQty)))
      = some ([(1, 6)], [(1, 2)]) := by
    decide +kernel
  simp only [Option.bind_eq_some_iff, Option.map_eq_some_iff, Prod.mk.injEq] at hrun
  obtain ⟨e₀, h₀, r, hr, w, hw, d, hd, d', hd', hfirst, hsecond⟩ := hrun
  exact ⟨e₀, r, w, d, d', h₀, hr, hw, hd, hd', hfirst, hsecond⟩

/-- A bid and an ask that do not meet, and a cancel of a reference that does not rest. -/
theorem replay_twice_resting : ∃ d₀ d d', ∃ reader : WalReader,
    ofCapacity 4 none none none = some d₀ ∧ reader.count = 3 ∧
    d₀.recoverFromWal (some reader) = some d ∧
    (d.slots (0, .bid)).length = 1 ∧ (d.slots (0, .ask)).length = 1 ∧
    d.recoverFromWal (some reader) = some d' ∧ ∀ locate, SameBook locate d' d := by
  obtain ⟨reader, hreader⟩ : ∃ reader : WalReader, reader = ⟨fun i => [
      { type := 0x01, side := 0x01, price := 100, quantity := 10, userId := 1, orderId := 1 },
      { type := 0x01, side := 0x02, price := 101, quantity := 4, userId := 2, orderId := 2 },
      { type := 0x02, userId := 9, orderId := 9 }].getD i {}, 3⟩ := ⟨_, rfl⟩
  have hrun : ((ofCapacity 4 none none none).bind fun d₀ =>
      (d₀.recoverFromWal (some reader)).map fun d =>
        (((d.slots (0, .bid)).length, (d.slots (0, .ask)).length), d.index.find 1, d.index.find 2,
          d.index.find 9)) = some ((1, 1), some (some 0), some (some 1), some none) := by
    rw [hreader]
    decide +kernel
  simp only [Option.bind_eq_some_iff, Option.map_eq_some_iff, Prod.mk.injEq] at hrun
  obtain ⟨d₀, h₀, d, hd, ⟨hbid, hask⟩, h₁, h₂, h₉⟩ := hrun
  have hinert : ∀ i < min reader.count walEntries, d.Inert (reader.base i) := by
    subst hreader
    intro i hi
    have hi' : i < 3 := Nat.lt_of_lt_of_le hi (Nat.min_le_left _ _)
    rcases i with _ | _ | _ | i
    · exact ⟨fun _ => ⟨0, h₁⟩, by simp, by simp⟩
    · exact ⟨fun _ => ⟨1, h₂⟩, by simp, by simp⟩
    · exact ⟨by simp, fun _ => Or.inl h₉, by simp⟩
    · omega
  obtain ⟨d', hd', hsame⟩ := replay_twice hinert (Nat.le_refl _)
  exact ⟨d₀, d, d', reader, h₀, by rw [hreader], hd, hbid, hask, hd', hsame⟩

end

end MatchingEngine

end NebulaX
