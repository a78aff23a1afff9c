import NebulaX.Lib.Trace
import NebulaX.Proofs.WalLog
import NebulaX.Proofs.Runs
import NebulaX.Server.Summary

/-!
# `NebulaX.Proofs.Checkpoint`: checkpoints and laps of the log

The log is a ring, and a checkpoint is to be made between the end of a lap and the first
append of the next one. `needCheckpoint` is true only in between, and it is looked at only by
a tick that is due for a summary.

* `checkpoint_before_overwrite`: if a tick that is due for a summary falls between the end of
  every lap and the next append, no append overwrites an entry of a lap that no checkpoint
  covers.
* `overwrite_without_checkpoint`: a server that cancels only has no summaries, whatever the
  number of ticks.
-/

set_option autoImplicit false

namespace NebulaX

open NebulaX.Lib

/-- What happens in the event loop. -/
inductive LoopEvent where
  | call (c : Call)
  | tick
  deriving DecidableEq, Repr

/-- What an event comes to: the answers and the entry that was logged, or the state that a tick
found and what it wrote. -/
inductive LoopOutput where
  | answered (out : List BinaryResponse) (entry : Option WalEntry)
  | ticked (before : EventLoop) (log : TickLog)

/-- The event appended an entry. -/
def LoopOutput.appends : LoopOutput → Bool
  | .answered _ entry => entry.isSome
  | .ticked _ _ => false

namespace EventLoop

/-- One event. -/
def serve (s : EventLoop) : LoopEvent → Option (EventLoop × LoopOutput)
  | .call c => (s.engine.exec c).map fun r =>
      ({ s with engine := r.1 }, .answered r.2 (s.engine.logged c))
  | .tick => some (s.logSummary.1, .ticked s s.logSummary.2)

/-- The newest events, newest first, with at most `n` appends among them. -/
def newest : Nat → List (LoopEvent × LoopOutput) → List (LoopEvent × LoopOutput)
  | _, [] => []
  | n, x :: xs =>
      if x.2.appends then (if n = 0 then [] else x :: newest (n - 1) xs) else x :: newest n xs

/-- The end of a history with at most `n` appends. -/
def lately (n : Nat) (h : List (LoopEvent × LoopOutput)) : List (LoopEvent × LoopOutput) :=
  newest n h.reverse

/-- `new_orders` is a thousand at least, and a thousand at least above its value at the last
summary. The difference is that of `uint64_t`. -/
def SummaryDue (s : EventLoop) : Prop :=
  ∃ m, s.engine.metrics = some m ∧ 1000 ≤ m.newOrders ∧ 1000 ≤ m.newOrders - s.summaryLastOrders

/-- A tick of these events found a summary due. -/
def FoundDue (l : List (LoopEvent × LoopOutput)) : Prop :=
  ∃ ev before log, (ev, .ticked before log) ∈ l ∧ before.SummaryDue

/-- A tick of these events made a checkpoint. -/
def Checkpointed (l : List (LoopEvent × LoopOutput)) : Prop :=
  ∃ ev before log, (ev, .ticked before log) ∈ l ∧ log.checkpoint = true

/-- What is asked of the events of a run: when a lap is complete, a tick before the next append
finds a summary due. -/
def Timely (h : List (LoopEvent × LoopOutput)) (s : EventLoop) (ev : LoopEvent) : Prop :=
  ∀ c w, ev = .call c → s.engine.logged c ≠ none → s.engine.wal = some w →
    w.needCheckpoint = true → FoundDue (lately 0 h)

section
variable {s s' : EventLoop} {h : List (LoopEvent × LoopOutput)} {ev : LoopEvent}
variable {x : LoopEvent × LoopOutput} {n : Nat}

theorem lately_snoc_of_appends (hx : x.2.appends = true) :
    lately (n + 1) (h ++ [x]) = x :: lately n h := by
  simp [lately, newest, hx]

theorem lately_zero_of_appends (hx : x.2.appends = true) : lately 0 (h ++ [x]) = [] := by
  simp [lately, newest, hx]

theorem lately_snoc (hx : x.2.appends = false) : lately n (h ++ [x]) = x :: lately n h := by
  simp [lately, newest, hx]

theorem Checkpointed.cons {l : List (LoopEvent × LoopOutput)} (hl : Checkpointed l) :
    Checkpointed (x :: l) := by
  obtain ⟨ev, before, log, hmem, hlog⟩ := hl
  exact ⟨ev, before, log, List.mem_cons_of_mem _ hmem, hlog⟩

/-- What holds along a timely run: a due tick at the end of a lap makes a checkpoint, and past
the end of a lap one was made since. -/
structure Covered (h : List (LoopEvent × LoopOutput)) (s : EventLoop) : Prop where
  atEnd : ∀ w, s.engine.wal = some w → w.needCheckpoint = true → FoundDue (lately 0 h) →
    Checkpointed (lately 0 h)
  past : ∀ w, s.engine.wal = some w → walEntries ≤ w.total.toNat → w.needCheckpoint = false →
    Checkpointed (lately (w.total.toNat % walEntries) h)

/-- The end of a lap is where the number of entries is a multiple of their number. -/
theorem needCheckpoint_iff {w : WalWriter} (hw : walEntries ≤ w.total.toNat) :
    w.needCheckpoint = true ↔ w.total.toNat % walEntries = 0 := by
  have hpos : 0 < w.total := by
    rw [UInt64.lt_iff_toNat_lt]
    exact Nat.lt_of_lt_of_le (by decide) hw
  simp [WalWriter.needCheckpoint, hpos]

/-- An append finds its lap covered. -/
theorem Covered.covers (hc : Covered h s) {c : Call} (hp : Timely h s (.call c))
    (hlog : s.engine.logged c ≠ none) {w : WalWriter} (hw : s.engine.wal = some w)
    (hover : walEntries ≤ w.total.toNat) :
    Checkpointed (lately (w.total.toNat % walEntries) h) := by
  cases hneed : w.needCheckpoint with
  | true =>
      rw [(needCheckpoint_iff hover).mp hneed]
      exact hc.atEnd w hw hneed (hp c w rfl hlog hw hneed)
  | false => exact hc.past w hw hover hneed

/-- An event that appends nothing. -/
theorem Covered.of_quiet (hc : Covered h s) (hx : x.2.appends = false)
    (hwal : s'.engine.wal = s.engine.wal)
    (hnow : ∀ w before log, s.engine.wal = some w → x.2 = .ticked before log →
      before.SummaryDue → log.checkpoint = w.needCheckpoint) : Covered (h ++ [x]) s' where
  atEnd w hw hneed hfound := by
    rw [hwal] at hw
    rw [lately_snoc hx] at hfound ⊢
    obtain ⟨ev, before, log, hmem, hdue⟩ := hfound
    rcases List.mem_cons.mp hmem with heq | hmem
    · refine ⟨ev, before, log, hmem, ?_⟩
      rw [hnow w before log hw (by rw [← heq]) hdue, hneed]
    · exact (hc.atEnd w hw hneed ⟨ev, before, log, hmem, hdue⟩).cons
  past w hw hover hneed := by
    rw [hwal] at hw
    rw [lately_snoc hx]
    exact (hc.past w hw hover hneed).cons

/-- An append. -/
theorem Covered.of_append (hc : Covered h s) {c : Call} (hp : Timely h s (.call c))
    (hlog : s.engine.logged c ≠ none) (hx : x.2.appends = true) {w : WalWriter} {entry : WalEntry}
    (hw : s.engine.wal = some w) (hw' : s'.engine.wal = some (w.append entry)) :
    Covered (h ++ [x]) s' where
  atEnd _ _ _ hfound := by
    rw [lately_zero_of_appends hx] at hfound
    obtain ⟨ev, before, log, hmem, -⟩ := hfound
    exact absurd hmem List.not_mem_nil
  past w' hw'' hover hneed := by
    obtain rfl : w.append entry = w' := Option.some.inj (hw'.symm.trans hw'')
    have hend : (w.append entry).total.toNat % walEntries ≠ 0 := fun h0 => by
      rw [(needCheckpoint_iff hover).mpr h0] at hneed
      exact absurd hneed (by simp)
    have htotal : (w.append entry).total.toNat = (w.total.toNat + 1) % 2 ^ 64 := by
      show (w.total + 1).toNat = _
      rw [UInt64.toNat_add]
      rfl
    -- The counter did not overflow, and it is in the lap it was in before.
    obtain ⟨hlap, hbefore⟩ : (w.append entry).total.toNat % walEntries
        = w.total.toNat % walEntries + 1 ∧ walEntries ≤ w.total.toNat := by
      have hW : walEntries = 13421772 := by decide
      have hlt := w.total.toNat_lt
      rw [htotal, hW] at hover hend ⊢
      omega
    rw [hlap, lately_snoc_of_appends hx]
    exact (hc.covers hp hlog hw hbefore).cons

/-- A tick leaves the engine alone. -/
theorem logSummary_engine (s : EventLoop) : s.logSummary.1.engine = s.engine := by
  unfold logSummary
  split
  · rfl
  · split
    · rfl
    · split <;> rfl

/-- A due tick makes a checkpoint if one is needed. -/
theorem logSummary_of_due (hdue : s.SummaryDue) :
    s.logSummary.2.checkpoint = s.engine.checkpointIfNeeded := by
  obtain ⟨m, hm, htotal, hgrown⟩ := hdue
  simp [logSummary, hm, UInt64.not_lt.mpr htotal, UInt64.not_lt.mpr hgrown]

/-- One event of a timely run. -/
theorem Covered.step (hc : Covered h s) (hp : Timely h s ev) {o : LoopOutput}
    (hstep : s.serve ev = some (s', o)) : Covered (h ++ [(ev, o)]) s' := by
  cases ev with
  | tick =>
      simp only [serve, Option.some.injEq, Prod.mk.injEq] at hstep
      obtain ⟨rfl, rfl⟩ := hstep
      refine hc.of_quiet rfl (by rw [logSummary_engine]) fun w before log hw hout hdue => ?_
      simp only [LoopOutput.ticked.injEq] at hout
      obtain ⟨rfl, rfl⟩ := hout
      rw [logSummary_of_due hdue, MatchingEngine.checkpointIfNeeded, hw]
  | call c =>
      simp only [serve, Option.map_eq_some_iff, Prod.mk.injEq] at hstep
      obtain ⟨r, hexec, rfl, rfl⟩ := hstep
      have hwal := MatchingEngine.exec_wal hexec
      cases hlog : s.engine.logged c with
      | none =>
          refine hc.of_quiet rfl ?_ fun w before log _ hout => absurd hout (by simp)
          rw [hlog] at hwal
          rw [hwal]
          cases s.engine.wal <;> rfl
      | some entry =>
          rw [hlog] at hwal
          cases hw : s.engine.wal with
          | none =>
              -- Without a log there is nothing to cover.
              rw [hw] at hwal
              exact ⟨fun w hw' => absurd (hwal.symm.trans hw') (by simp [MatchingEngine.walAfter]),
                fun w hw' => absurd (hwal.symm.trans hw') (by simp [MatchingEngine.walAfter])⟩
          | some w =>
              rw [hw] at hwal
              exact hc.of_append hp (by rw [hlog]; simp) rfl hw hwal

/-- No append overwrites an entry of a lap that no checkpoint covers. In every run of calls
and ticks in which a tick between the end of each lap and the next append finds `new_orders`
at 1000 or more and grown by 1000 or more since the last summary: an append that finds
`walEntries` entries or more finds a checkpoint among the events since the last lap was completed,
which are those with as many appends as the new lap has. -/
theorem checkpoint_before_overwrite {f : WalFile} {s₀ : EventLoop}
    (hw₀ : s₀.engine.wal = some (WalWriter.init f).2) (t : Trace serve Timely s₀ h s)
    {c : Call} (hp : Timely h s (.call c)) (hlog : s.engine.logged c ≠ none) {w : WalWriter}
    (hw : s.engine.wal = some w) (hover : walEntries ≤ w.total.toNat) :
    Checkpointed (lately (w.total.toNat % walEntries) h) := by
  have hstart : Covered [] s₀ := by
    refine ⟨fun w _ _ hfound => ?_, fun w hw hover hneed => ?_⟩
    · obtain ⟨ev, before, log, hmem, -⟩ := hfound
      exact absurd hmem List.not_mem_nil
    · -- `init` leaves the counter at most at the end of the first lap.
      obtain rfl : (WalWriter.init f).2 = w := Option.some.inj (hw₀.symm.trans hw)
      have hle : (WalWriter.init f).2.total.toNat ≤ walEntries := by
        unfold WalWriter.init
        split
        · exact Nat.zero_le _
        · show (UInt64.ofNat _).toNat ≤ _
          rw [UInt64.toNat_ofNat']
          exact Nat.le_trans (Nat.mod_le _ _) (Nat.min_le_right _ _)
      have hmod : (WalWriter.init f).2.total.toNat % walEntries = 0 := by
        rw [Nat.le_antisymm hle hover, Nat.mod_self]
      rw [(needCheckpoint_iff hover).mpr hmod] at hneed
      exact absurd hneed (by simp)
  have hc : Covered h s := t.invariant (fun h s => Covered h s) hstart
    fun h s ev s' o _ hc hp hstep => hc.step hp hstep
  exact hc.covers hp hlog hw hover

/-! ### A server that only cancels -/

/-- A cancel of a reference that does not rest appends an entry and counts no order. -/
theorem exec_cancel_unknown {e : MatchingEngine} {ref : UInt64} (userId : UInt64)
    (hfind : e.index.find ref = some none) {w : WalWriter} (hw : e.wal = some w) :
    ∃ e' entry, e.exec (.cancel 0 ref userId) = some (e', [.error .orderNotFound]) ∧
      e.logged (.cancel 0 ref userId) = some entry ∧ e'.wal = some (w.append entry) ∧
      e'.index = e.index ∧
      e'.metrics.map IOCounters.newOrders = e.metrics.map IOCounters.newOrders := by
  obtain ⟨e₁, hopen, hs⟩ : ∃ e₁, (e.count fun c => { c with cancels := c.cancels + 1 }).bookFor 0
      = some e₁ ∧ MatchingEngine.Same _ e₁ := by
    rcases MatchingEngine.bookFor_spec (e.count fun c => { c with cancels := c.cancels + 1 }) 0 with
      ⟨hl, -⟩ | ⟨-, e₁, hopen, hs⟩
    · exact absurd hl (by decide)
    · exact ⟨e₁, hopen, hs⟩
  have hindex : e₁.index = e.index := hs.index
  have hmetrics : e₁.metrics.map IOCounters.newOrders = e.metrics.map IOCounters.newOrders := by
    rw [MatchingEngine.bookFor_metrics hopen, MatchingEngine.count, Option.map_map]
    rfl
  obtain ⟨entry, hlog⟩ : ∃ entry, e.logged (.cancel 0 ref userId) = some entry :=
    ⟨_, by rw [MatchingEngine.logged, if_neg (by decide)]⟩
  obtain ⟨e', hexec⟩ : ∃ e', e.exec (.cancel 0 ref userId) = some (e', [.error .orderNotFound]) ∧
      e'.index = e₁.index ∧
      e'.metrics.map IOCounters.newOrders = e₁.metrics.map IOCounters.newOrders := by
    simp only [MatchingEngine.exec, MatchingEngine.processCancel, hopen,
      OrderBook.removeOrderById, MatchingEngine.book, MatchingEngine.log, hindex, hfind]
    refine ⟨_, rfl, rfl, ?_⟩
    simp [MatchingEngine.count, MatchingEngine.putBook, Function.comp_def]
  refine ⟨e', entry, hexec.1, hlog, ?_, hexec.2.1.trans hindex, hexec.2.2.trans hmetrics⟩
  rw [MatchingEngine.exec_wal hexec.1, hlog, hw]
  rfl

/-- `n` cancels of a reference that does not rest, with a tick after each of them. -/
theorem run_cancels {e₀ : MatchingEngine} {ref : UInt64} (userId : UInt64)
    (hfind : e₀.index.find ref = some none) (hw : e₀.wal = some .fresh)
    (horders : e₀.metrics.map IOCounters.newOrders = some 0) {n : Nat} (hn : n < 2 ^ 64) :
    ∃ s h w, Trace serve (fun _ _ _ => True) ⟨e₀, 0⟩ h s ∧
      h.map Prod.fst = (List.replicate n [.call (.cancel 0 ref userId), .tick]).flatten ∧
      s.engine.index = e₀.index ∧ s.engine.metrics.map IOCounters.newOrders = some 0 ∧
      s.engine.wal = some w ∧ w.total.toNat = n ∧ ¬ Checkpointed h := by
  induction n with
  | zero =>
      refine ⟨⟨e₀, 0⟩, [], .fresh, .nil, rfl, rfl, horders, hw, rfl, ?_⟩
      rintro ⟨ev, before, log, hmem, -⟩
      exact absurd hmem List.not_mem_nil
  | succ n ih =>
      obtain ⟨s, h, w, t, hcalls, hindex, hzero, hw, htotal, hcheck⟩ := ih (by omega)
      obtain ⟨e', entry, hexec, hlog, hw', hindex', hzero'⟩ :=
        exec_cancel_unknown userId (hindex ▸ hfind : s.engine.index.find ref = _) hw
      rw [hzero] at hzero'
      -- No order was counted, so the tick writes nothing.
      have htick : logSummary { s with engine := e' } = ({ s with engine := e' }, {}) := by
        obtain ⟨m, hm, hnew⟩ := Option.map_eq_some_iff.mp hzero'
        simp [logSummary, hm, hnew]
      have hcall : s.serve (.call (.cancel 0 ref userId))
          = some ({ s with engine := e' }, .answered [.error .orderNotFound] (some entry)) := by
        simp [serve, hexec, hlog]
      have htick' : serve { s with engine := e' } .tick
          = some ({ s with engine := e' }, .ticked { s with engine := e' } {}) := by
        rw [serve, htick]
      refine ⟨_, _, _, (t.snoc trivial hcall).snoc trivial htick', ?_, hindex'.trans hindex, hzero',
        hw', ?_, ?_⟩
      · simp [hcalls, List.replicate_succ']
      · show (w.total + 1).toNat = _
        rw [UInt64.toNat_add, htotal]
        exact Nat.mod_eq_of_lt (show n + 1 < 2 ^ 64 by omega)
      · rintro ⟨ev, before, log, hmem, hlog⟩
        simp only [List.append_assoc, List.mem_append, List.mem_singleton, Prod.mk.injEq] at hmem
        rcases hmem with hmem | ⟨-, hout⟩ | ⟨-, hout⟩
        · exact hcheck ⟨ev, before, log, hmem, hlog⟩
        · exact absurd hout (by simp)
        · rw [(LoopOutput.ticked.inj hout).2] at hlog
          exact absurd hlog (by simp)

/-- A lap of cancels with a tick after each of them. No order is counted, so no tick writes a
summary, and the next cancel overwrites the first entry without a checkpoint. -/
theorem overwrite_without_checkpoint : ∃ e₀ s h w,
    MatchingEngine.ofCapacity 2 (some {}) (some .fresh) none = some e₀ ∧
    Trace serve (fun _ _ _ => True) ⟨e₀, 0⟩ h s ∧
    h.map Prod.fst = (List.replicate walEntries [.call (.cancel 0 1 1), .tick]).flatten ∧
    s.engine.logged (.cancel 0 1 1) ≠ none ∧ s.engine.wal = some w ∧
    w.total.toNat = walEntries ∧ ¬ Checkpointed h := by
  have hstart : (MatchingEngine.ofCapacity 2 (some {}) (some .fresh) none).map
      (fun e₀ => (e₀.index.find 1, e₀.metrics.map IOCounters.newOrders))
      = some (some none, some 0) := by
    decide +kernel
  obtain ⟨e₀, h₀, hstart⟩ := Option.map_eq_some_iff.mp hstart
  obtain ⟨hfind, horders⟩ := Prod.mk.inj hstart
  have hw₀ : e₀.wal = some .fresh := by
    obtain ⟨index, -, rfl⟩ := MatchingEngine.exists_of_ofCapacity h₀
    rfl
  obtain ⟨s, h, w, t, hcalls, -, -, hw, htotal, hcheck⟩ :=
    run_cancels 1 hfind hw₀ horders MatchingEngine.walEntries_lt
  refine ⟨e₀, s, h, w, h₀, t, hcalls, ?_, hw, htotal, hcheck⟩
  rw [MatchingEngine.logged, if_neg (by decide)]
  simp

/-- A server that starts with a full file and a thousand orders counted: the first tick makes
the checkpoint, and the first cancel may overwrite. -/
theorem checkpoint_before_overwrite_restart : ∃ e₀ s h w,
    MatchingEngine.ofCapacity 2 (some { newOrders := 1000 })
      (some (WalWriter.init ⟨walSize, fun _ => {}⟩).2) none = some e₀ ∧
    Trace serve Timely ⟨e₀, 0⟩ h s ∧ h.map Prod.fst = [.tick] ∧
    s.engine.logged (.cancel 0 1 1) ≠ none ∧ s.engine.wal = some w ∧
    walEntries ≤ w.total.toNat ∧ Checkpointed (lately (w.total.toNat % walEntries) h) := by
  have hstart : (MatchingEngine.ofCapacity 2 (some { newOrders := 1000 })
      (some (WalWriter.init ⟨walSize, fun _ => {}⟩).2) none).map
        (fun e₀ => ((EventLoop.logSummary ⟨e₀, 0⟩).2, e₀.metrics))
        = some (⟨true, true⟩, some { newOrders := 1000 }) := by
    decide +kernel
  obtain ⟨e₀, h₀, hstart⟩ := Option.map_eq_some_iff.mp hstart
  obtain ⟨htick, hmetrics⟩ := Prod.mk.inj hstart
  have hw₀ : e₀.wal = some (WalWriter.init ⟨walSize, fun _ => {}⟩).2 := by
    obtain ⟨index, -, rfl⟩ := MatchingEngine.exists_of_ofCapacity h₀
    rfl
  have hserve : serve ⟨e₀, 0⟩ .tick
      = some ((logSummary ⟨e₀, 0⟩).1, .ticked ⟨e₀, 0⟩ ⟨true, true⟩) := by
    rw [serve, htick]
  have t : Trace serve Timely ⟨e₀, 0⟩ [(.tick, .ticked ⟨e₀, 0⟩ ⟨true, true⟩)]
      (logSummary ⟨e₀, 0⟩).1 :=
    Trace.nil.snoc (fun c w hev => absurd hev (by simp)) hserve
  have hwal : (logSummary ⟨e₀, 0⟩).1.engine.wal
      = some (WalWriter.init ⟨walSize, fun _ => {}⟩).2 := by
    rw [logSummary_engine]
    exact hw₀
  have hlog : (logSummary ⟨e₀, 0⟩).1.engine.logged (.cancel 0 1 1) ≠ none := by
    rw [MatchingEngine.logged, if_neg (by decide)]
    simp
  have hover : walEntries ≤ (WalWriter.init ⟨walSize, fun _ => {}⟩).2.total.toNat := by
    decide +kernel
  have hp : Timely [(.tick, .ticked ⟨e₀, 0⟩ ⟨true, true⟩)] (logSummary ⟨e₀, 0⟩).1
      (.call (.cancel 0 1 1)) := by
    intro c w _ _ _ _
    exact ⟨.tick, ⟨e₀, 0⟩, ⟨true, true⟩, by simp [lately, newest, LoopOutput.appends],
      { newOrders := 1000 }, hmetrics, by decide, show (1000 : UInt64) ≤ 1000 - 0 by decide⟩
  exact ⟨e₀, _, _, _, h₀, t, rfl, hlog, hwal, hover,
    checkpoint_before_overwrite hw₀ t hp hlog hwal hover⟩

end

end EventLoop

end NebulaX
