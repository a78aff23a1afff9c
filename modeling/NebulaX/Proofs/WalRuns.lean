import NebulaX.Proofs.Runs
import NebulaX.Proofs.WalReplay

/-!
# `NebulaX.Proofs.WalRuns`: whole logs, read back

* `Mirrors` is the invariant of a run beside the replay of its log, `Mirrors.step` one call
  and its entry, and `Mirrors.recover` the call of `recoverFromWal` in the end, which reads
  the file with the zeros behind the log.
* `replay_reproduces`: runs of DAY orders, cancels and partial cancels.
* `replay_immediate`: runs with orders that may not rest, if each of them finds its whole
  quantity. An entry has no time in force, so `ioc_rests_after_replay`: what is left of an
  immediate order is discarded live and rests after recovery.
-/

set_option autoImplicit false

namespace NebulaX

open NebulaX.Lib

namespace MatchingEngine

/-! ### The loop -/

/-- Replay entries one after the other. -/
def replayAll (e : MatchingEngine) (log : List WalEntry) : Option MatchingEngine :=
  log.foldlM replayEntry e

section
variable {e d d₀ : MatchingEngine}
variable {e₀ : MatchingEngine} {c n : Nat} {metrics metrics' : Option IOCounters}
variable {wal' : Option WalWriter} {tradePool tradePool' : Option TradePool}
variable {h : List (Call × List BinaryResponse)} {log : List WalEntry} {w : WalWriter}
variable {s : MatchingEngine × List WalEntry}

theorem replayAll_append (e : MatchingEngine) (log log' : List WalEntry) :
    e.replayAll (log ++ log') = (e.replayAll log).bind fun d => d.replayAll log' :=
  List.foldlM_append

/-- The loop replays the entries in their order. -/
theorem replayLoop_eq {reader : WalReader} {k i : Nat} (h : i + k ≤ reader.count)
    (e : MatchingEngine) :
    replayLoop reader k i e = e.replayAll ((List.range' i k).map reader.base) := by
  induction k generalizing i e with
  | zero => rfl
  | succ k ih =>
      have hentry : reader.entryAt i = some (reader.base i) := if_pos (by omega)
      rw [replayLoop, hentry, List.range'_succ, List.map_cons, replayAll, List.foldlM_cons]
      exact bind_congr fun e' => ih (by omega) e'

/-- The slots of a file, as far as they are read. -/
theorem Writes.map_base (hw : Writes w log) (hn : log.length ≤ n) :
    (List.range' 0 n).map w.base = log ++ List.replicate (n - log.length) ({} : WalEntry) := by
  refine List.ext_getElem (by simp; omega) fun i h₁ h₂ => ?_
  rw [List.getElem_map, List.getElem_range', hw.base, List.getD]
  rcases Nat.lt_or_ge i log.length with hi | hi
  · rw [List.getElem_append_left hi]
    simp [hi]
  · rw [List.getElem_append_right hi, List.getElem_replicate]
    simp [hi]

/-- Reading a file that has not wrapped replays its log, and then zeros. -/
theorem recoverFromWal_of_writes (hw : Writes w log) (hfull : log.length ≤ walEntries)
    (hn : log.length ≤ n) (d : MatchingEngine) :
    ∃ zeros, d.recoverFromWal (some ⟨w.base, n⟩)
      = (d.replayAll (log ++ List.replicate zeros ({} : WalEntry))).map countPool := by
  refine ⟨min n walEntries - log.length, ?_⟩
  rw [recoverFromWal, replayLoop_eq (by simp only; omega), hw.map_base (by simp only; omega)]
  exact Option.map_eq_bind.symm

/-! ### Runs -/

/-- The counter stays ahead of a number that is not the last one. -/
theorem lt_bumped (next : UInt64) {id : UInt64} (h : id.toNat ≠ 2 ^ 64 - 1) :
    id < bumped next id ∧ next ≤ bumped next id := by
  have hsucc : (id + 1).toNat = id.toNat + 1 := by
    rw [UInt64.toNat_add]
    exact Nat.mod_eq_of_lt (by have := id.toNat_lt; simp; omega)
  unfold bumped
  split
  · rename_i hle
    rw [UInt64.le_iff_toNat_le] at hle
    rw [UInt64.lt_iff_toNat_lt, UInt64.le_iff_toNat_le, hsucc]
    omega
  · rename_i hlt
    exact ⟨UInt64.not_le.mp hlt, UInt64.le_refl _⟩

/-- What holds along a run beside the replay of its log in the engine `d₀`. -/
structure Mirrors (d₀ : MatchingEngine) (s : MatchingEngine × List WalEntry)
    (d : MatchingEngine) : Prop where
  inv : s.1.Inv
  valid : s.1.abs.AllValid
  replayed : d₀.replayAll s.2 = some d
  twin : Twin s.1 d
  ids : (∀ entry ∈ s.2, entry.orderId.toNat ≠ 2 ^ 64 - 1) →
    ∀ entry ∈ s.2, entry.orderId < d.nextOrderId

/-- An order that is filled leaves the others valid. -/
theorem allValid_of_filled {keep : Bool} {x : Exchange} {c : Call}
    {r : Exchange × List BinaryResponse} (h : Exchange.Does keep x c r) (hadd : c.named? = none)
    (hv : x.AllValid) (hf : ∀ o, x.submitted? c = some o → o.status = .filled) :
    r.1.AllValid := by
  cases h with
  | refused _ _ _ => exact hv
  | cancelled _ | usedUp _ _ | reduced _ _ | replaced _ _ =>
      exact absurd hadd (by simp [Call.named?])
  | added hok hsub hr =>
      have hfilled := hf _ hsub
      cases hr with
      | filled _ | dropped _ _ _ => exact hv.thins (Exchange.thins_matched x _ _)
      | rested hs _ _ => exact absurd hfilled hs

/-- A replayable call keeps the orders valid. -/
theorem allValid_of_replayable {c : Call} {keep : Bool} {r : Exchange × List BinaryResponse}
    (h : e.Inv) (hv : e.abs.AllValid) (hc : e.Replayable c)
    (hdoes : Exchange.Does keep e.abs c r) : r.1.AllValid := by
  cases c with
  | add locate ref side price quantity userId tif =>
      by_cases htif : tif = .day
      · exact hdoes.allValid h.proper hv htif
      · refine allValid_of_filled hdoes rfl hv fun o ho => ?_
        -- What is submitted is logged, and what is logged is filled.
        have hlimit := canFullFill_eq h locate side (limitPrice tif side price) quantity
        obtain ⟨y, hy, rfl⟩ := Option.map_eq_some_iff.mp ho
        obtain ⟨rfl, hok⟩ := Exchange.facing?_add hy
        refine hc.2 htif ?_
        rw [logged, if_pos ⟨hok.1, fun hfok => by rw [hlimit]; simpa using hok.2 hfok⟩]
        simp
  | cancel | cancelShares => exact hdoes.allValid h.proper hv trivial
  | replace => exact hdoes.allValid h.proper hv fun hown => absurd hc.1 hown

/-- Two new engines of the same capacity. -/
theorem Mirrors.start {wal : Option WalWriter} (h₀ : ofCapacity c metrics wal tradePool = some e₀)
    (hd₀ : ofCapacity c metrics' wal' tradePool' = some d₀) : Mirrors d₀ (e₀, []) d₀ := by
  refine ⟨Inv.start h₀, ?_, rfl, ?_, fun _ entry hentry => absurd hentry List.not_mem_nil⟩
  · intro π o ho
    rw [show (e₀, ([] : List WalEntry)).1.abs = _ from abs_ofCapacity h₀] at ho
    exact absurd ho List.not_mem_nil
  · obtain ⟨index, hindex, rfl⟩ := exists_of_ofCapacity h₀
    obtain ⟨index', hindex', rfl⟩ := exists_of_ofCapacity hd₀
    obtain rfl : index = index' := Option.some.inj (hindex.symm.trans hindex')
    exact ⟨rfl, rfl, rfl⟩

/-- One call, and its entry if it has one. -/
theorem Mirrors.step {s' : MatchingEngine × List WalEntry} {out : List BinaryResponse}
    (hm : Mirrors d₀ s d) {c : Call} (ha : Admissible [] s.1 c) (hc : s.1.Replayable c)
    (hstep : execLogged s c = some (s', out)) : ∃ d', Mirrors d₀ s' d' := by
  simp only [execLogged, Option.map_eq_some_iff, Prod.mk.injEq] at hstep
  obtain ⟨⟨e', out'⟩, hexec, rfl, rfl⟩ := hstep
  have hto := stepsTo_of_exec hm.inv ha hexec
  have hdoes : Exchange.Does _ s.1.abs c (e'.abs, out') :=
    hto.abs ▸ Exchange.step_does _ s.1.abs c
  have hvalid := allValid_of_replayable hm.inv hm.valid hc hdoes
  rcases repeats_of_replayable hm.inv hm.valid hm.twin ha.1 ha.2 hc hexec with
    ⟨hnone, ht⟩ | ⟨entry, hsome, d', hd', ht, hid⟩
  · refine ⟨d, hto.inv, hvalid, ?_, ht, ?_⟩
    · rw [hnone, Option.toList_none, List.append_nil]
      exact hm.replayed
    · rw [hnone, Option.toList_none, List.append_nil]
      exact hm.ids
  · refine ⟨d', hto.inv, hvalid, ?_, ht, ?_⟩
    · rw [hsome, Option.toList_some, replayAll_append, hm.replayed]
      simp [replayAll, hd']
    · rw [hsome, Option.toList_some]
      intro hne x hx
      have hne' : ∀ y ∈ s.2, y.orderId.toNat ≠ 2 ^ 64 - 1 := fun y hy =>
        hne y (List.mem_append_left _ hy)
      obtain ⟨hlast, hmono⟩ := lt_bumped d.nextOrderId (hne entry (by simp))
      rw [hid]
      rcases List.mem_append.mp hx with hx | hx
      · exact UInt64.lt_of_lt_of_le (hm.ids hne' x hx) hmono
      · rw [List.mem_singleton.mp hx]
        exact hlast

/-- Zeros in the file replay to nothing. -/
theorem replayAll_zeros (ht : Twin e d) (zeros : Nat) :
    ∃ d', d.replayAll (List.replicate zeros ({} : WalEntry)) = some d' ∧ Twin e d' ∧
      d.nextOrderId ≤ d'.nextOrderId := by
  induction zeros generalizing d with
  | zero => exact ⟨d, rfl, ht, UInt64.le_refl _⟩
  | succ n ih =>
      obtain ⟨d₁, hopen, ht₁, hid₁⟩ := bookFor_twin ht 0
      obtain ⟨d', hd', ht', hid'⟩ := ih (ht₁.passEntry {})
      refine ⟨d', ?_, ht', UInt64.le_trans ?_ hid'⟩
      · have hentry : d.replayEntry {} = some (d₁.passEntry {}) := by
          simp only [replayEntry, hopen]
          rfl
        rw [List.replicate_succ, replayAll, List.foldlM_cons, hentry]
        exact hd'
      · rw [← hid₁]
        exact (lt_bumped d₁.nextOrderId (show (0 : UInt64).toNat ≠ _ by decide)).2

/-- `recoverFromWal` in the end of a run. -/
theorem Mirrors.recover (hm : Mirrors d₀ (e, log) d) (hw : Writes w log)
    (hfull : log.length ≤ walEntries) (hn : log.length ≤ n) :
    ∃ d', d₀.recoverFromWal (some ⟨w.base, n⟩) = some d' ∧ Twin e d' ∧
      ((∀ entry ∈ log, entry.orderId.toNat ≠ 2 ^ 64 - 1) →
        ∀ entry ∈ log, entry.orderId < d'.nextOrderId) := by
  obtain ⟨zeros, hread⟩ := recoverFromWal_of_writes hw hfull hn d₀
  obtain ⟨d', hd', ht, hid⟩ := replayAll_zeros hm.twin zeros
  refine ⟨d'.countPool, ?_, ht.trans_same (Same.refl e) (Same.count _ _), fun hne x hx => ?_⟩
  · rw [hread, replayAll_append, hm.replayed]
    simp [hd']
  · exact UInt64.lt_of_lt_of_le (hm.ids hne x hx) hid

/-- The log stands in the file of the engine, as long as the file has not wrapped. -/
def InFile (s : MatchingEngine × List WalEntry) : Prop :=
  ∃ w, s.1.wal = some w ∧ (s.2.length ≤ walEntries → Writes w s.2)

theorem InFile.start (h₀ : ofCapacity c metrics (some .fresh) tradePool = some e₀) :
    InFile (e₀, []) := by
  obtain ⟨index, -, rfl⟩ := exists_of_ofCapacity h₀
  exact ⟨.fresh, rfl, fun _ => ⟨rfl, fun i => by simp [WalWriter.fresh]⟩⟩

theorem InFile.step {s' : MatchingEngine × List WalEntry} {c : Call} {out : List BinaryResponse}
    (h : InFile s) (hstep : execLogged s c = some (s', out)) : InFile s' := by
  obtain ⟨w, hw, hwrites⟩ := h
  simp only [execLogged, Option.map_eq_some_iff, Prod.mk.injEq] at hstep
  obtain ⟨r, hexec, rfl, -⟩ := hstep
  have hwal := exec_wal hexec
  rw [hw] at hwal
  cases hlogged : s.1.logged c with
  | none =>
      rw [hlogged] at hwal
      refine ⟨w, hwal, ?_⟩
      simpa using hwrites
  | some entry =>
      rw [hlogged] at hwal
      refine ⟨w.append entry, hwal, fun hlen => ?_⟩
      simp only [Option.toList_some, List.length_append, List.length_singleton] at hlen ⊢
      exact (hwrites (by omega)).append (by omega) entry

/-- The log of a run from a fresh file is what stands in the file. -/
theorem writes_of_trace
    {P : List (Call × List BinaryResponse) → MatchingEngine × List WalEntry → Call → Prop}
    (h₀ : ofCapacity c metrics (some .fresh) tradePool = some e₀)
    (t : Trace execLogged P (e₀, []) h (e, log)) (hfull : log.length ≤ walEntries) :
    ∃ w, e.wal = some w ∧ Writes w log := by
  obtain ⟨w, hw, hwrites⟩ : InFile (e, log) :=
    t.invariant (fun _ s => InFile s) (InFile.start h₀)
      fun h s c s' out _ ih hp hstep => ih.step hstep
  exact ⟨w, hw, hwrites hfull⟩

/-- The run lemma: a condition that makes every call admissible and replayable. -/
theorem mirrors_of_trace {wal : Option WalWriter}
    {P : List (Call × List BinaryResponse) → MatchingEngine × List WalEntry → Call → Prop}
    (hP : ∀ h s c, s.1.Inv → P h s c → Admissible [] s.1 c ∧ s.1.Replayable c)
    (h₀ : ofCapacity c metrics wal tradePool = some e₀)
    (hd₀ : ofCapacity c metrics' wal' tradePool' = some d₀) (t : Trace execLogged P (e₀, []) h s) :
    ∃ d, Mirrors d₀ s d := by
  refine t.invariant (fun _ s => ∃ d, Mirrors d₀ s d) ⟨d₀, Mirrors.start h₀ hd₀⟩
    fun h s c s' out _ ih hp hstep => ?_
  obtain ⟨d, hm⟩ := ih
  obtain ⟨ha, hc⟩ := hP h s c hm.inv hp
  exact hm.step ha hc hstep

/-! ### DAY orders, cancels and partial cancels -/

/-- An order that a call names belongs to the user of the call. -/
def ByOwner (e : MatchingEngine) (c : Call) : Prop :=
  ∀ ref userId, c.named? = some (ref, userId) →
    ∀ π, ∀ o ∈ e.abs.queues π, o.orderId = ref → o.userId = userId

/-- A DAY order, a cancel or a partial cancel, as both servers issue them: the side of an order is
an enumerator. -/
def DayCall (_ : List (Call × List BinaryResponse)) (s : MatchingEngine × List WalEntry)
    (c : Call) : Prop :=
  Admissible [] s.1 c ∧ s.1.ByOwner c ∧ match c with
    | .add _ _ side _ _ _ tif => side.Named ∧ tif = .day
    | .replace .. => False
    | _ => True

/-- The log reproduces the live books. For every run of DAY orders, cancels and partial
cancels by the owner, from an empty engine with a fresh file and with at most `walEntries`
entries, the file holds the entries in their order, and reading it with any number of zeros
behind them ends in the same books. -/
theorem replay_reproduces {c : Nat} {metrics metrics' : Option IOCounters}
    {wal' : Option WalWriter} {tradePool tradePool' : Option TradePool} {e₀ : MatchingEngine}
    {h : List (Call × List BinaryResponse)} {log : List WalEntry} {n : Nat}
    (h₀ : ofCapacity c metrics (some .fresh) tradePool = some e₀)
    (hd₀ : ofCapacity c metrics' wal' tradePool' = some d₀)
    (t : Trace execLogged DayCall (e₀, []) h (e, log))
    (hfull : log.length ≤ walEntries) (hn : log.length ≤ n) :
    ∃ w d, e.wal = some w ∧ Writes w log ∧ d₀.recoverFromWal (some ⟨w.base, n⟩) = some d ∧
      (∀ locate, SameBook locate d e) ∧
      ((∀ entry ∈ log, entry.orderId.toNat ≠ 2 ^ 64 - 1) →
        ∀ entry ∈ log, entry.orderId < d.nextOrderId) := by
  have hP : ∀ h s c, s.1.Inv → DayCall h s c → Admissible [] s.1 c ∧ s.1.Replayable c := by
    rintro h s c - ⟨ha, hown, hkind⟩
    refine ⟨ha, ?_⟩
    cases c with
    | add => exact ⟨hkind.1, fun htif => absurd hkind.2 htif⟩
    | cancel => trivial
    | cancelShares locate ref shares userId => exact hown ref userId rfl
    | replace => exact hkind.elim
  obtain ⟨d, hm⟩ := mirrors_of_trace hP h₀ hd₀ t
  obtain ⟨w, hw, hwrites⟩ := writes_of_trace h₀ t hfull
  obtain ⟨d', hd', ht, hids⟩ := hm.recover hwrites hfull hn
  exact ⟨w, d', hw, hwrites, hd', ht.sameBook, hids⟩

/-- A bid of 5 and a partial cancel of 2 by its owner. -/
theorem replay_reproduces_partial : ∃ e₀ e log w d,
    ofCapacity 4 none (some .fresh) none = some e₀ ∧
    (run execLogged (e₀, []) [.add 0 1 .buy 100 5 1 .day, .cancelShares 0 1 2 1]).map
      Prod.fst = some (e, log) ∧
    log.map WalEntry.type = [0x01, 0x03] ∧ e.wal = some w ∧
    e₀.recoverFromWal (some ⟨w.base, 10⟩) = some d ∧ (∀ locate, SameBook locate d e) ∧
    ∀ entry ∈ log, entry.orderId < d.nextOrderId := by
  have hrun : ((ofCapacity 4 none (some .fresh) none).bind fun e₀ =>
      (execLogged (e₀, []) (.add 0 1 .buy 100 5 1 .day)).bind fun r₁ =>
      (execLogged r₁.1 (.cancelShares 0 1 2 1)).map fun r₂ =>
        r₂.1.2.map fun entry => (entry.type, entry.orderId))
      = some [(0x01, 1), (0x03, 1)] := by
    decide +kernel
  simp only [Option.bind_eq_some_iff, Option.map_eq_some_iff] at hrun
  obtain ⟨e₀, h₀, ⟨⟨e₁, log₁⟩, out₁⟩, hs₁, ⟨⟨e₂, log⟩, out₂⟩, hs₂, hlog⟩ := hrun
  have honly : ∀ π, ∀ o ∈ e₁.abs.queues π, π.1 = 0 ∧ o.orderId = 1 ∧ o.userId = 1 := by
    intro π o ho
    obtain ⟨x, hx, hl, hid, hu⟩ := mem_of_trace h₀ (.snoc .nil (admissible_start h₀ _)
      (exec_of_execLogged hs₁)) ho
    obtain rfl := List.mem_singleton.mp hx
    exact ⟨hl, (Option.some.inj hid).symm, (Option.some.inj hu).symm⟩
  have t : Trace execLogged DayCall (e₀, []) [(.add 0 1 .buy 100 5 1 .day, out₁),
      (.cancelShares 0 1 2 1, out₂)] (e₂, log) := by
    refine (Trace.nil.snoc ⟨admissible_start h₀ _, by simp [ByOwner, Call.named?], trivial, rfl⟩
      hs₁).snoc
      ⟨⟨trivial, Exchange.routed_of_only fun π o ho => (honly π o ho).1⟩, ?_, trivial⟩ hs₂
    rintro ref userId hname π o ho -
    rw [← (Prod.mk.inj (Option.some.inj hname)).2]
    exact (honly π o ho).2.2
  have hlen : log.length = 2 := by
    have := congrArg List.length hlog
    simpa using this
  obtain ⟨w, d, hw, -, hd, hbooks, hids⟩ := replay_reproduces (n := 10) h₀ h₀ t
    (by rw [hlen]; decide) (by rw [hlen]; decide)
  have hid : ∀ entry ∈ log, entry.orderId = 1 := by
    intro entry hentry
    have hmem : (entry.type, entry.orderId) ∈ [((0x01 : UInt8), (1 : UInt64)), (0x03, 1)] :=
      hlog ▸ List.mem_map.mpr ⟨entry, hentry, rfl⟩
    simp only [List.mem_cons, Prod.mk.injEq, List.not_mem_nil, or_false] at hmem
    rcases hmem with ⟨-, h⟩ | ⟨-, h⟩ <;> exact h
  refine ⟨e₀, e₂, log, w, d, h₀, ?_, ?_, hw, hd, hbooks, hids fun entry hentry => ?_⟩
  · exact congrArg (Option.map Prod.fst) t.run_eq
  · have := congrArg (List.map Prod.fst) hlog
    simpa [Function.comp_def] using this
  · rw [hid entry hentry]
    decide

/-! ### Immediate orders -/

/-- An immediate order that `processAdd` accepts is offered its whole quantity, by other
users and at its limit or better. -/
def OfferedAll (e : MatchingEngine) : Call → Prop
  | .add locate ref side price quantity userId tif =>
      tif ≠ .day → Exchange.refusal locate ref side price quantity userId tif = none →
      (tif = .fok →
        canFullFill (e.book locate) side (limitPrice tif side price) quantity = some true) →
      quantity.toNat ≤ offered side.bookSide.opposite userId (limitPrice tif side price)
        (e.abs.queues (locate, side.bookSide.opposite))
  | _ => True

/-- An order of any kind, a cancel or a partial cancel; the side of an order is an enumerator, and
immediate orders are offered their quantity. -/
def OfferedCall (_ : List (Call × List BinaryResponse)) (s : MatchingEngine × List WalEntry)
    (c : Call) : Prop :=
  Admissible [] s.1 c ∧ s.1.ByOwner c ∧ (match c with
    | .add _ _ side .. => side.Named
    | .replace .. => False
    | _ => True) ∧ s.1.OfferedAll c

/-- An order that is offered its quantity is filled. -/
theorem filled_of_offered (h : e.Inv) {locate ref : UInt64} {side : Side}
    {price quantity : UInt32} {userId : UInt64} (hq : quantity ≠ 0)
    (hoffer : quantity.toNat ≤ offered side.bookSide.opposite userId price
      (e.abs.queues (locate, side.bookSide.opposite))) :
    (e.abs.takerAfterMatch locate (Exchange.incoming ref side price quantity userId)).status
      = .filled := by
  have hrest : (e.abs.fills locate (Exchange.incoming ref side price quantity userId)).rest = 0 :=
    greedy_rest_eq_zero (h.proper.sorted (locate, side.bookSide.opposite)) hoffer
  refine (taker_filled_iff _ rfl).mpr ⟨fun hnone => hq ?_, hrest⟩
  rw [← hrest]
  exact (greedy_rest_of_trades_nil hnone).symm

/-- The log reproduces the live books, with immediate orders that are offered their whole
quantity. -/
theorem replay_immediate {c : Nat} {metrics metrics' : Option IOCounters}
    {wal' : Option WalWriter} {tradePool tradePool' : Option TradePool} {e₀ : MatchingEngine}
    {h : List (Call × List BinaryResponse)} {log : List WalEntry} {n : Nat}
    (h₀ : ofCapacity c metrics (some .fresh) tradePool = some e₀)
    (hd₀ : ofCapacity c metrics' wal' tradePool' = some d₀)
    (t : Trace execLogged OfferedCall (e₀, []) h (e, log))
    (hfull : log.length ≤ walEntries) (hn : log.length ≤ n) :
    ∃ w d, e.wal = some w ∧ Writes w log ∧ d₀.recoverFromWal (some ⟨w.base, n⟩) = some d ∧
      ∀ locate, SameBook locate d e := by
  have hP : ∀ h s c, s.1.Inv → OfferedCall h s c → Admissible [] s.1 c ∧ s.1.Replayable c := by
    rintro h s c hinv ⟨ha, hown, hplain, hoffer⟩
    refine ⟨ha, ?_⟩
    cases c with
    | add locate ref side price quantity userId tif =>
        refine ⟨hplain, fun htif hlogged => ?_⟩
        simp only [logged, ne_eq, ite_eq_right_iff, reduceCtorEq, imp_false, not_not] at hlogged
        have hq : quantity ≠ 0 := (Exchange.refusal_eq_none_iff.mp hlogged.1).2.2.2.1
        exact filled_of_offered hinv hq (hoffer htif hlogged.1 hlogged.2)
    | cancel => trivial
    | cancelShares locate ref shares userId => exact hown ref userId rfl
    | replace => exact hplain.elim
  obtain ⟨d, hm⟩ := mirrors_of_trace hP h₀ hd₀ t
  obtain ⟨w, hw, hwrites⟩ := writes_of_trace h₀ t hfull
  obtain ⟨d', hd', ht, -⟩ := hm.recover hwrites hfull hn
  exact ⟨w, d', hw, hwrites, hd', ht.sameBook⟩

/-- A market order in an empty book is discarded. Its entry is a DAY order at the highest
price there is, and it rests after recovery. -/
theorem ioc_rests_after_replay : ∃ e₀ e log w d out,
    ofCapacity 4 none (some .fresh) none = some e₀ ∧
    execLogged (e₀, []) (.add 0 1 .buy 0 5 1 .ioc) = some ((e, log), out) ∧
    e.wal = some w ∧ Writes w log ∧ e₀.recoverFromWal (some ⟨w.base, 1⟩) = some d ∧
    e.slots (0, .bid) = [] ∧
    (d.slots (0, .bid)).map (fun i => ((d.pool.storage i).orderId, (d.pool.storage i).price,
      (d.pool.storage i).remainingQty)) = [(1, uint32Max, 5)] := by
  have hrun : ((ofCapacity 4 none (some .fresh) none).bind fun e₀ =>
      (execLogged (e₀, []) (.add 0 1 .buy 0 5 1 .ioc)).bind fun r => r.1.1.wal.bind fun w =>
      (e₀.recoverFromWal (some ⟨w.base, 1⟩)).map fun d =>
        (r.1.1.slots (0, .bid), (d.slots (0, .bid)).map fun i => ((d.pool.storage i).orderId,
          (d.pool.storage i).price, (d.pool.storage i).remainingQty), r.1.2.length))
      = some ([], [(1, uint32Max, 5)], 1) := by
    decide +kernel
  simp only [Option.bind_eq_some_iff, Option.map_eq_some_iff, Prod.mk.injEq] at hrun
  obtain ⟨e₀, h₀, ⟨⟨e, log⟩, out⟩, hs, w, hw, d, hd, hlive, hrests, hlen⟩ := hrun
  have t : Trace execLogged (fun _ _ _ => True) (e₀, []) _ (e, log) := Trace.nil.snoc trivial hs
  obtain ⟨w', hw', hwrites⟩ := writes_of_trace h₀ t (by rw [hlen]; decide)
  obtain rfl : w' = w := Option.some.inj (hw'.symm.trans hw)
  exact ⟨e₀, e, log, w', d, out, h₀, hs, hw', hwrites, hd, hlive, hrests⟩

/-- An ask of 5, and a market order for 3 of it. -/
theorem replay_immediate_market : ∃ e₀ e log w d,
    ofCapacity 4 none (some .fresh) none = some e₀ ∧
    (run execLogged (e₀, []) [.add 0 1 .sell 100 5 1 .day, .add 0 2 .buy 0 3 2 .ioc]).map
      Prod.fst = some (e, log) ∧
    log.length = 2 ∧ e.wal = some w ∧ e₀.recoverFromWal (some ⟨w.base, 2⟩) = some d ∧
    (e.slots (0, .ask)).map (fun i => (e.pool.storage i).remainingQty) = [2] ∧
    ∀ locate, SameBook locate d e := by
  have hrun : ((ofCapacity 4 none (some .fresh) none).bind fun e₀ =>
      (execLogged (e₀, []) (.add 0 1 .sell 100 5 1 .day)).bind fun r₁ =>
      (execLogged r₁.1 (.add 0 2 .buy 0 3 2 .ioc)).map fun r₂ =>
        (offered .ask 2 uint32Max (r₁.1.1.abs.queues (0, .ask)), r₂.1.2.length,
          (r₂.1.1.slots (0, .ask)).map fun i => (r₂.1.1.pool.storage i).remainingQty))
      = some (5, 2, [2]) := by
    decide +kernel
  simp only [Option.bind_eq_some_iff, Option.map_eq_some_iff, Prod.mk.injEq] at hrun
  obtain ⟨e₀, h₀, ⟨⟨e₁, log₁⟩, out₁⟩, hs₁, ⟨⟨e₂, log⟩, out₂⟩, hs₂, hoffer, hlen, hslots⟩ := hrun
  have t : Trace execLogged OfferedCall (e₀, []) [(.add 0 1 .sell 100 5 1 .day, out₁),
      (.add 0 2 .buy 0 3 2 .ioc, out₂)] (e₂, log) := by
    refine (Trace.nil.snoc ⟨admissible_start h₀ _, by simp [ByOwner, Call.named?], trivial,
      fun hday => absurd rfl hday⟩ hs₁).snoc ⟨admissible_add h₀
        (.snoc .nil (admissible_start h₀ _) (exec_of_execLogged hs₁)) (by simp [Call.newRef?]),
        by simp [ByOwner, Call.named?], trivial, fun _ _ _ => ?_⟩ hs₂
    exact (by decide : (3 : UInt32).toNat ≤ 5).trans_eq hoffer.symm
  obtain ⟨w, d, hw, -, hd, hbooks⟩ := replay_immediate (n := 2) h₀ h₀ t
    (by rw [hlen]; decide) (by rw [hlen])
  refine ⟨e₀, e₂, log, w, d, h₀, ?_, hlen, hw, hd, hslots, hbooks⟩
  exact congrArg (Option.map Prod.fst) t.run_eq

end

end MatchingEngine

end NebulaX
