import NebulaX.Proofs.WalRuns

/-!
# `NebulaX.Proofs.WalMessages`: replaces, read back

The entry of a replace carries the new reference only. `recoverFromWal` removes the order
under that reference, which is not there yet, and brings in nothing: the old order stays.

* `Recovers` says that reading the file of an engine gives its books.
* `replay_messages`: the servers' runs without a replace of a resting order recover, and the
  first replace of a resting order is where recovery fails.
-/

set_option autoImplicit false

namespace NebulaX

open NebulaX.Lib

namespace MatchingEngine

/-- Reading the first `n` slots of the file of `e`, a new engine `d₀` gets the books of `e`. -/
def Recovers (d₀ : MatchingEngine) (n : Nat) (e : MatchingEngine) : Prop :=
  ∃ w d, e.wal = some w ∧ d₀.recoverFromWal (some ⟨w.base, n⟩) = some d ∧
    ∀ locate, SameBook locate d e

section
variable {e d d₀ e' : MatchingEngine} {log : List WalEntry} {n : Nat}

/-- A run beside the replay of its log recovers. -/
theorem Mirrors.recovers (hm : Mirrors d₀ (e, log) d) (hfile : InFile (e, log))
    (hfull : log.length ≤ walEntries) (hn : log.length ≤ n) : Recovers d₀ n e := by
  obtain ⟨w, hw, hwrites⟩ := hfile
  obtain ⟨d', hd', ht, -⟩ := hm.recover (hwrites hfull) hfull hn
  exact ⟨w, d', hw, hd', ht.sameBook⟩

/-- Counters and logs do not matter. -/
theorem Mirrors.of_same (hm : Mirrors d₀ (e, log) d) (hs : Same e e') :
    Mirrors d₀ (e', log) d where
  inv := hs.inv hm.inv
  valid := by
    show e'.abs.AllValid
    rw [hs.abs]
    exact hm.valid
  replayed := hm.replayed
  twin := hm.twin.trans_same hs (Same.refl d)
  ids := hm.ids

/-- What a call logs does not depend on counters. -/
theorem logged_of_same (hs : Same e e') (c : Call) : e'.logged c = e.logged c := by
  have hbook : ∀ locate, e'.book locate = e.book locate := fun locate => by
    simp only [book, hs.levelsOf, hs.pool, hs.index]
  cases c <;> simp only [logged, hbook, hs.nextSequence]

/-! ### What a replace of a resting order does to the replay -/

/-- The same book has the same orders. -/
theorem SameBook.mem {locate : UInt64} (h : e.Inv) (h' : e'.Inv) (hb : SameBook locate e e')
    {s : BookSide} {o : OrderInfo} (ho : o ∈ e.abs.queues (locate, s)) :
    o ∈ e'.abs.queues (locate, s) := by
  have hview := hb s o.price
  rw [h.levelView_eq, h'.levelView_eq] at hview
  have hmem : o ∈ (e.abs.queues (locate, s)).filter fun y => y.price = o.price :=
    List.mem_filter.mpr ⟨ho, by simp⟩
  have hfilter : (e.abs.queues (locate, s)).filter (fun y => y.price = o.price)
      = (e'.abs.queues (locate, s)).filter fun y => y.price = o.price := by
    simp only [levelAt, id] at hview
    rw [if_neg (by simpa using List.ne_nil_of_mem hmem)] at hview
    split at hview
    · exact absurd hview (by simp)
    · simpa using congrArg (Option.map LevelView.orders) hview
  rw [hfilter] at hmem
  exact (List.mem_filter.mp hmem).1

end

end MatchingEngine

namespace Exchange

section
variable {x : Exchange} {locate : UInt64} {o : OrderInfo}

/-- A trade shows in the queue: the resting order is gone or has less left. -/
theorem changed_of_trade (hx : x.Proper) (htrade : (x.fills locate o).trades ≠ [])
    (hsame : ∀ s, ∀ y, y ∈ (x.matched locate o).queues (locate, s) ↔ y ∈ x.queues (locate, s)) :
    False := by
  obtain ⟨t, ht⟩ := List.exists_mem_of_ne_nil _ htrade
  have hmem : t.1 ∈ x.queues (locate, o.side.bookSide.opposite) := (mem_of_mem_trades ht).1
  have hqueue : (x.matched locate o).queues (locate, o.side.bookSide.opposite)
      = (x.fills locate o).queue := Function.update_self ..
  have hsame' := hsame o.side.bookSide.opposite
  simp only [hqueue] at hsame'
  have hfate : Fate (x.fills locate o) t.1 := greedy_fate (hx.nodup _) hmem
  cases hfate with
  | kept hno _ => exact hno t ht rfl
  | usedUp _ hgone => exact hgone t.1 ((hsame' t.1).mpr hmem) rfl
  | partly m hm hlt _ hleft =>
      have heq := (hx.refs _ _ _ _ ((hsame' _).mp hleft) hmem rfl).2
      have hqty : t.1.remainingQty - m = t.1.remainingQty := congrArg OrderInfo.remainingQty heq
      have hnat := congrArg UInt32.toNat hqty
      rw [UInt32.toNat_sub_of_le _ _ (UInt32.le_of_lt hlt)] at hnat
      rw [UInt32.lt_iff_toNat_lt] at hlt
      exact hm (UInt32.toNat_inj.mp (by rw [UInt32.toNat_zero]; omega))

/-- A new order shows in a book that has room: it rests, or it trades. -/
theorem changed_of_submitDay (hx : x.Proper) (locate : UInt64) (o : OrderInfo) (keep : Bool)
    (hside : o.side ≠ .invalid) (hopen : o.status = .opened) (hno : x.Absent o.orderId)
    (hfree : x.free ≠ 0)
    (hsame : ∀ s, ∀ y, y ∈ (x.submitDay keep locate o).1.queues (locate, s) ↔
      y ∈ x.queues (locate, s)) : False := by
  by_cases hf : ((x.fills locate o).taker o).status = .filled
  · simp only [submitDay, hf, if_true] at hsame
    exact changed_of_trade hx ((taker_filled_iff _ hopen).mp hf).1 hsame
  · have hroom : ¬ (((x.fills locate o).taker o).side = .invalid ∨
        (x.matched locate o).free = 0) := by
      rintro (hbad | hbad)
      · exact hside hbad
      · exact hfree (Nat.eq_zero_of_add_eq_zero_right hbad)
    simp only [submitDay, hf, if_false, Exchange.rest, hroom] at hsame
    have hin : (x.fills locate o).taker o ∈ x.queues (locate, o.side.bookSide) :=
      (hsame _ _).mp (mem_enter.mpr (Or.inl ⟨rfl, rfl⟩))
    exact hno _ _ hin rfl

end

end Exchange

namespace MatchingEngine

/-- The entry of a replace of a resting order is not what the replace did: the replaying
engine ends as the twin of an engine with another book. -/
theorem replayReplace_differs {e d e' : MatchingEngine} {out : List BinaryResponse} (h : e.Inv)
    (ht : Twin e d) {locate oldRef newRef : UInt64} {side : Side} (hside : side ≠ .invalid)
    {price quantity : UInt32} {userId : UInt64}
    (ha : Admissible [] e (.replace locate oldRef newRef side price quantity userId))
    (hown : e.abs.owned locate oldRef userId ≠ none)
    (hexec : e.exec (.replace locate oldRef newRef side price quantity userId)
      = some (e', out)) {entry : WalEntry}
    (hlogged : e.logged (.replace locate oldRef newRef side price quantity userId) = some entry) :
    ∃ d' e₂, d.replayEntry entry = some d' ∧ Twin e₂ d' ∧ ¬ SameBook locate e₂ e' := by
  obtain ⟨hl, i, s, hfind, hu, hi, howned⟩ := (owned_eq h ha.2).resolve_right fun hno => hown hno.1
  obtain ⟨hid, huser, htype, hlocate⟩ : entry.orderId = newRef ∧ entry.userId = userId ∧
      entry.type = 0x04 ∧ entry.locate.toUInt64 = locate := by
    rw [logged, if_neg hl] at hlogged
    obtain rfl := Option.some.inj hlogged
    exact ⟨rfl, rfl, rfl, toUInt16_toUInt64 hl⟩
  have hto := stepsTo_of_exec h ha hexec
  obtain ⟨keep, habs⟩ : ∃ keep, e'.abs = ((e.abs.remove locate (e.pool.info i)).submitDay keep
      locate (Exchange.incoming newRef side price quantity newRef)).1 := by
    have hstep := congrArg Prod.fst hto.abs
    simp only [Exchange.step, Exchange.replace, howned] at hstep
    exact ⟨_, hstep⟩
  obtain ⟨d₁, hopen, ht₁, -⟩ := bookFor_twin ht entry.locate
  rw [hlocate] at hopen
  obtain ⟨b, hrem, hinv₂, habs₂, -, -⟩ := h.removeOrder hi
  have hgone := Exchange.absent_remove h.proper howned
  by_cases href : newRef = oldRef
  · -- The entry names the order that was replaced, and removes it.
    subst href
    obtain ⟨hfind₁, huser₁, -⟩ := ht₁.found hfind
    obtain ⟨c, hc, ht₂⟩ := ht₁.removeOrder hrem
    refine ⟨(d₁.putBook locate c).passEntry entry, e.putBook locate b, ?_, ht₂.passEntry entry,
      fun hb => ?_⟩
    · have hreplay : d₁.replayReplace locate entry = some (d₁.putBook locate c) := by
        simp only [book] at hc
        simp [replayReplace, OrderBook.findOrder, book, hid, hfind₁, huser₁, hu, huser, hc]
      simp [replayEntry, hopen, htype, hlocate, hreplay]
    · refine Exchange.changed_of_submitDay (h.proper.remove locate (e.pool.info i)) locate
        (Exchange.incoming newRef side price quantity newRef) keep hside rfl hgone
        (Nat.succ_ne_zero _) fun s y => ?_
      rw [← habs, ← habs₂]
      exact ⟨SameBook.mem hto.inv hinv₂ fun s p => (hb s p).symm, SameBook.mem hinv₂ hto.inv hb⟩
  · -- No order has the new reference, so the entry does nothing and the old order stays.
    have hfind₁ := find_of_absent h (ha.1.resolve_left href)
    rw [← ht₁.index, ← hid] at hfind₁
    refine ⟨d₁.passEntry entry, e, ?_, ht₁.passEntry entry, fun hb => ?_⟩
    · simp [replayEntry, hopen, htype, hlocate, replayReplace, OrderBook.findOrder, book, hfind₁]
    · have hstill : e.pool.info i ∈ e'.abs.queues (locate, s) :=
        SameBook.mem h hto.inv hb (List.mem_map.mpr ⟨i, hi, rfl⟩)
      have holdRef : (e.pool.info i).orderId = oldRef := (Exchange.mem_of_owned howned).2.2.1
      rw [habs] at hstill
      rcases (Exchange.submitDay_submitted keep _ locate _).mem hstill with
        ⟨y, hy, hleft⟩ | ⟨-, hnew, -⟩
      · exact hgone _ y hy (hleft.orderId.symm.trans holdRef)
      · exact href (((congrArg OrderInfo.orderId hnew).symm.trans holdRef))

/-- An entry that ends as the twin of an engine with another book: the file is of no use. -/
theorem Mirrors.lost {e d d₀ d' e₂ e' : MatchingEngine} {log : List WalEntry} {entry : WalEntry}
    {locate : UInt64} {n : Nat} (hm : Mirrors d₀ (e, log) d)
    (hfile : InFile (e', log ++ [entry])) (hfull : (log ++ [entry]).length ≤ walEntries)
    (hn : (log ++ [entry]).length ≤ n) (hd' : d.replayEntry entry = some d') (ht : Twin e₂ d')
    (hne : ¬ SameBook locate e₂ e') : ¬ Recovers d₀ n e' := by
  rintro ⟨w, r, hw, hread, hsame⟩
  obtain ⟨w', hw', hwrites⟩ := hfile
  obtain rfl : w' = w := Option.some.inj (hw'.symm.trans hw)
  -- Reading the file replays the run, then the entry, then zeros.
  obtain ⟨zeros, hzeros⟩ := recoverFromWal_of_writes (hwrites hfull) hfull hn d₀
  obtain ⟨d'', hd'', ht'', -⟩ := replayAll_zeros ht zeros
  have hentry : d.replayAll [entry] = some d' := by simp [replayAll, hd']
  rw [hzeros, replayAll_append, replayAll_append, hm.replayed, Option.bind_some, hentry,
    Option.bind_some, hd''] at hread
  obtain rfl : d''.countPool = r := Option.some.inj hread
  refine hne fun s price => ?_
  have ht₂ : Twin e₂ d''.countPool := ht''.trans_same (Same.refl e₂) (Same.count d'' _)
  exact (ht₂.sameBook locate s price).symm.trans (hsame locate s price)

end MatchingEngine

namespace TcpServer

/-! ### Messages -/

/-- A message, with the log kept. -/
def processLogged (s : TcpServer × List WalEntry) (msg : List UInt8) :
    Option ((TcpServer × List WalEntry) × List BinaryResponse) :=
  (s.1.processItchMessage msg).map fun r =>
    ((r.1, s.2 ++ ((s.1.callOf msg).bind s.1.engine.logged).toList), r.2)

/-- A replace message names no order that the index finds. -/
def ReplacesNothing (s : TcpServer) (msg : List UInt8) : Prop :=
  ∀ locate ref newRef shares price,
    (s.itchParser.feed msg).2 = some (.replace locate ref newRef shares price) →
    s.engine.index.find ref = some none

/-- What is asked of the messages of a run: references are unique while resting, calls go to
the right book, and no resting order is replaced. -/
def ReplaceFree (_ : List (List UInt8 × List BinaryResponse)) (s : TcpServer × List WalEntry)
    (msg : List UInt8) : Prop :=
  s.1.Admits msg ∧ s.1.ReplacesNothing msg

section
variable {s s' : TcpServer × List WalEntry} {msg : List UInt8} {out : List BinaryResponse}

/-- A logged message is a logged call or nothing. -/
theorem processLogged_cases (h : s.1.engine.Inv) (hstep : processLogged s msg = some (s', out)) :
    (s.1.callOf msg = none ∧ MatchingEngine.Same s.1.engine s'.1.engine ∧
        s'.1.engine.wal = s.1.engine.wal ∧ s'.2 = s.2) ∨
      ∃ c e₁, s.1.callOf msg = some c ∧ MatchingEngine.Same s.1.engine e₁ ∧
        e₁.wal = s.1.engine.wal ∧
        MatchingEngine.execLogged (e₁, s.2) c = some ((s'.1.engine, s'.2), out) := by
  simp only [processLogged, Option.map_eq_some_iff, Prod.mk.injEq] at hstep
  obtain ⟨⟨s₁, out₁⟩, hmsg, rfl, rfl⟩ := hstep
  rcases processItchMessage_spec h msg with
    ⟨hnone, s₂, out₂, heq, hs, hwal, -⟩ | ⟨c, e₁, p, hcall, hs, hwal, heq⟩
  · rw [hmsg, Option.some.injEq, Prod.mk.injEq] at heq
    obtain ⟨rfl, rfl⟩ := heq
    exact Or.inl ⟨hnone, hs, hwal, by simp [hnone]⟩
  · rw [heq, Option.map_eq_some_iff] at hmsg
    obtain ⟨r, hr, hmsg⟩ := hmsg
    obtain ⟨rfl, rfl⟩ := Prod.mk.inj hmsg
    refine Or.inr ⟨c, e₁, hcall, hs, hwal, ?_⟩
    simp [MatchingEngine.execLogged, hr, hcall, MatchingEngine.logged_of_same hs]

/-- What holds of a run beside the replay of its log. -/
structure Mirrored (d₀ : MatchingEngine) (s : TcpServer × List WalEntry) (d : MatchingEngine) :
    Prop where
  mirrors : MatchingEngine.Mirrors d₀ (s.1.engine, s.2) d
  file : MatchingEngine.InFile (s.1.engine, s.2)
  own : ∀ π, ∀ o ∈ s.1.engine.abs.queues π, o.userId = o.orderId

/-- A call of a message that replaces nothing. -/
theorem replayable_of_replacesNothing {e : MatchingEngine} {c : Call}
    (hcall : s.1.callOf msg = some c) (hno : s.1.ReplacesNothing msg)
    (hown : ∀ π, ∀ o ∈ e.abs.queues π, o.userId = o.orderId) : e.Replayable c := by
  have hitch := fromItch_of_callOf hcall
  cases c with
  | add =>
      obtain ⟨ev, hfeed, hev⟩ := Option.bind_eq_some_iff.mp hcall
      refine ⟨?_, fun htif => absurd hitch.2 htif⟩
      cases ev with
      | add =>
          cases hev
          rcases side_of_feed hfeed with rfl | rfl <;> trivial
      | delete | cancel | book => exact absurd hev (by simp [callOfEvent])
      | replace =>
          simp only [callOfEvent] at hev
          split at hev <;> cases hev
  | cancel => trivial
  | cancelShares locate ref shares userId =>
      intro π o ho hid
      rw [hown π o ho, hid]
      exact hitch.symm
  | replace =>
      obtain ⟨ev, hfeed, hev⟩ := Option.bind_eq_some_iff.mp hcall
      cases ev with
      | add | delete | cancel | book => exact absurd hev (by simp [callOfEvent])
      | replace l old new shares p =>
          simp only [callOfEvent, hno l old new shares p hfeed] at hev
          exact absurd hev (by simp)

/-- A message that replaces nothing, and what it logs. -/
theorem Mirrored.step {d₀ d : MatchingEngine} (hm : Mirrored d₀ s d)
    (hp : s.1.Admits msg) (hno : s.1.ReplacesNothing msg)
    (hstep : processLogged s msg = some (s', out)) : ∃ d', Mirrored d₀ s' d' := by
  rcases processLogged_cases hm.mirrors.inv hstep with
    ⟨-, hs, hwal, hlog⟩ | ⟨c, e₁, hcall, hs, hwal, hexec⟩
  · refine ⟨d, ?_, ?_, ?_⟩
    · rw [hlog]
      exact hm.mirrors.of_same hs
    · obtain ⟨w, hw, hwrites⟩ := hm.file
      exact ⟨w, hwal.trans hw, by rw [hlog]; exact hwrites⟩
    · rw [hs.abs]
      exact hm.own
  · have hm₁ := hm.mirrors.of_same hs
    have ha : MatchingEngine.Admissible [] e₁ c := by
      rw [MatchingEngine.Admissible, hs.abs]
      exact hp c hcall
    have hown₁ : ∀ π, ∀ o ∈ e₁.abs.queues π, o.userId = o.orderId := by
      rw [hs.abs]
      exact hm.own
    obtain ⟨d', hm'⟩ := hm₁.step ha (replayable_of_replacesNothing hcall hno hown₁) hexec
    refine ⟨d', hm', ?_, ?_⟩
    · obtain ⟨w, hw, hwrites⟩ := hm.file
      exact MatchingEngine.InFile.step (s := (e₁, s.2)) ⟨w, hwal.trans hw, hwrites⟩ hexec
    · have hto := MatchingEngine.stepsTo_of_exec hm₁.inv ha
        (MatchingEngine.exec_of_execLogged hexec)
      have hdoes := Exchange.step_does (!e₁.drops c) e₁.abs c
      rw [← hto.abs] at hdoes
      exact own_of_does hm₁.inv.proper hdoes (fromItch_of_callOf hcall) hown₁

/-- A replace of an order the index finds: its call, and whose order it is. -/
theorem call_of_found (h : s.1.engine.Inv)
    (hown : ∀ π, ∀ o ∈ s.1.engine.abs.queues π, o.userId = o.orderId) {locate : UInt16}
    {ref newRef : UInt64} {shares price : UInt32}
    (hfeed : (s.1.itchParser.feed msg).2 = some (.replace locate ref newRef shares price))
    (hfind : s.1.engine.index.find ref ≠ some none) :
    ∃ i, s.1.engine.index.find ref = some (some i) ∧
      (s.1.engine.pool.storage i).userId = ref ∧
      (s.1.engine.pool.storage i).side ≠ .invalid ∧
      s.1.callOf msg = some (.replace locate.toUInt64 ref newRef
        (s.1.engine.pool.storage i).side price shares ref) := by
  rw [OrderMap.find_eq_lookup h.wf] at hfind
  obtain ⟨i, hi⟩ := Option.ne_none_iff_exists'.mp fun hnone => hfind (congrArg some hnone)
  have hfind' : s.1.engine.index.find ref = some (some i) := by
    rw [OrderMap.find_eq_lookup h.wf, hi]
  obtain ⟨hid, π, hπ⟩ := h.sound ref i hi
  refine ⟨i, hfind', ?_, ?_, ?_⟩
  · exact (hown π _ (List.mem_map.mpr ⟨i, hπ, rfl⟩)).trans hid
  · exact (h.restsOn hπ).1
  · simp [callOf, hfeed, callOfEvent, hfind']

/-- After a replace of a resting order the file does not give the books any more. -/
theorem Mirrored.lost {d₀ d : MatchingEngine} (hm : Mirrored d₀ s d) (hp : s.1.Admits msg)
    (hstep : processLogged s msg = some (s', out)) (hfull : s'.2.length ≤ walEntries) {n : Nat}
    (hn : s'.2.length ≤ n) (hrec : MatchingEngine.Recovers d₀ n s'.1.engine) :
    s.1.ReplacesNothing msg := by
  intro locate ref newRef shares price hfeed
  by_contra hfind
  obtain ⟨i, hfound, huser, hside, hcall⟩ :=
    call_of_found hm.mirrors.inv hm.own hfeed hfind
  rcases processLogged_cases hm.mirrors.inv hstep with
    ⟨hnone, -⟩ | ⟨c, e₁, hcall', hs, hwal, hexec⟩
  · rw [hcall] at hnone
    exact absurd hnone (by simp)
  · obtain rfl : _ = c := Option.some.inj (hcall.symm.trans hcall')
    have hm₁ := hm.mirrors.of_same hs
    have ha := hp _ hcall
    rw [MatchingEngine.Admissible, ← hs.abs] at ha
    have howned : e₁.abs.owned locate.toUInt64 ref ref ≠ none := by
      rcases MatchingEngine.owned_eq hm₁.inv ha.2 with ⟨-, j, s, -, -, -, ho⟩ | ⟨-, hmiss⟩
      · rw [ho]
        simp
      · -- The order the index finds belongs to its reference.
        rcases hmiss.resolve_left (not_kMaxLocate_le locate) with hno | ⟨j, hj, hne⟩
        · rw [hs.index, hfound] at hno
          exact absurd hno (by simp)
        · rw [hs.index, hfound] at hj
          obtain rfl := Option.some.inj (Option.some.inj hj)
          rw [hs.pool] at hne
          exact absurd huser hne
    have hfile : MatchingEngine.InFile (s'.1.engine, s'.2) := by
      obtain ⟨w, hw, hwrites⟩ := hm.file
      exact MatchingEngine.InFile.step (s := (e₁, s.2)) ⟨w, hwal.trans hw, hwrites⟩ hexec
    obtain ⟨entry, hlogged⟩ : ∃ entry, e₁.logged (.replace locate.toUInt64 ref newRef
        (s.1.engine.pool.storage i).side price shares ref) = some entry :=
      ⟨_, if_neg (not_kMaxLocate_le locate)⟩
    have hlog := MatchingEngine.log_of_execLogged hexec
    rw [hlogged, Option.toList_some] at hlog
    simp only at hlog
    rw [hlog] at hfile hfull hn
    obtain ⟨d', e₂, hd', ht, hne⟩ := MatchingEngine.replayReplace_differs hm₁.inv hm₁.twin hside
      ha howned (MatchingEngine.exec_of_execLogged hexec) hlogged
    exact hm.mirrors.lost hfile hfull hn hd' ht hne hrec

/-- Replaces and the log. In every run of messages from an empty engine with a fresh file, as
long as no resting order is replaced, reading the file gives the books of the live engine.
The next message keeps this exactly if it replaces no resting order either. -/
theorem replay_messages {c : Nat} {metrics metrics' : Option IOCounters}
    {wal' : Option WalWriter} {tradePool tradePool' : Option TradePool}
    {e₀ d₀ : MatchingEngine} {p : ItchParser} {h : List (List UInt8 × List BinaryResponse)}
    {s : TcpServer} {log : List WalEntry} {n : Nat}
    (h₀ : MatchingEngine.ofCapacity c metrics (some .fresh) tradePool = some e₀)
    (hd₀ : MatchingEngine.ofCapacity c metrics' wal' tradePool' = some d₀)
    (t : Trace processLogged ReplaceFree (⟨e₀, p⟩, []) h (s, log))
    (hfull : log.length ≤ walEntries) (hn : log.length ≤ n) :
    MatchingEngine.Recovers d₀ n s.engine ∧
    ∀ msg s' log' out, s.Admits msg → processLogged (s, log) msg = some ((s', log'), out) →
      log'.length ≤ walEntries → log'.length ≤ n →
      (MatchingEngine.Recovers d₀ n s'.engine ↔ s.ReplacesNothing msg) := by
  have hstart : Mirrored d₀ (⟨e₀, p⟩, []) d₀ := by
    refine ⟨MatchingEngine.Mirrors.start h₀ hd₀, MatchingEngine.InFile.start h₀, ?_⟩
    intro π o ho
    rw [show (⟨e₀, p⟩ : TcpServer).engine.abs = _ from MatchingEngine.abs_ofCapacity h₀] at ho
    exact absurd ho List.not_mem_nil
  obtain ⟨d, hm⟩ : ∃ d, Mirrored d₀ (s, log) d :=
    t.invariant (fun _ s => ∃ d, Mirrored d₀ s d) ⟨d₀, hstart⟩
      fun h s msg s' out _ ⟨d, hm⟩ hp hstep => hm.step hp.1 hp.2 hstep
  refine ⟨hm.mirrors.recovers hm.file hfull hn, fun msg s' log' out hp hstep hfull' hn' => ?_⟩
  refine ⟨hm.lost hp hstep hfull' hn', fun hno => ?_⟩
  obtain ⟨d', hm'⟩ := hm.step hp hno hstep
  exact hm'.mirrors.recovers hm'.file hfull' hn'

/-- An ask of 5 is replaced by an ask of 3 at another price. Live, order 2 rests; after
recovery, order 1 does. -/
theorem replace_lost_after_replay : ∃ e₀ s outs w d,
    MatchingEngine.ofCapacity 4 none (some .fresh) none = some e₀ ∧
    run processItchMessage ⟨e₀, {}⟩ [addMessage 1 83 5 10000, replaceMessage 1 2 3 9900]
      = some (s, outs) ∧
    s.engine.wal = some w ∧ e₀.recoverFromWal (some ⟨w.base, 2⟩) = some d ∧
    (s.engine.slots (0, .ask)).map (fun i => ((s.engine.pool.storage i).orderId,
      (s.engine.pool.storage i).price, (s.engine.pool.storage i).remainingQty)) = [(2, 99, 3)] ∧
    (d.slots (0, .ask)).map (fun i => ((d.pool.storage i).orderId, (d.pool.storage i).price,
      (d.pool.storage i).remainingQty)) = [(1, 100, 5)] := by
  have hrun : ((MatchingEngine.ofCapacity 4 none (some .fresh) none).bind fun e₀ =>
      (run dispatch e₀ [.add 0 1 .sell 5 100, .replace 0 1 2 3 99]).bind fun r =>
      r.1.wal.bind fun w => (e₀.recoverFromWal (some ⟨w.base, 2⟩)).map fun d =>
        ((r.1.slots (0, .ask)).map (fun i => ((r.1.pool.storage i).orderId,
          (r.1.pool.storage i).price, (r.1.pool.storage i).remainingQty)),
        (d.slots (0, .ask)).map fun i => ((d.pool.storage i).orderId, (d.pool.storage i).price,
          (d.pool.storage i).remainingQty)))
      = some ([(2, 99, 3)], [(1, 100, 5)]) := by
    decide +kernel
  simp only [Option.bind_eq_some_iff, Option.map_eq_some_iff, Prod.mk.injEq] at hrun
  obtain ⟨e₀, h₀, ⟨e, outs⟩, he, w, hw, d, hd, hlive, hreplayed⟩ := hrun
  have hevents : List.Forall₂ (fun msg ev => ∀ p, ItchParser.feed p msg = (p, some ev))
      [addMessage 1 83 5 10000, replaceMessage 1 2 3 9900]
      [.add 0 1 .sell 5 100, .replace 0 1 2 3 99] :=
    .cons (fun _ => rfl) (.cons (fun _ => rfl) .nil)
  refine ⟨e₀, ⟨e, {}⟩, outs, w, d, h₀, ?_, hw, hd, hlive, hreplayed⟩
  rw [run_of_feed hevents, he]
  rfl

/-- One order, and a replace message for a reference that does not rest. -/
theorem replay_messages_unknown : ∃ e₀ s log,
    MatchingEngine.ofCapacity 4 none (some .fresh) none = some e₀ ∧
    (run processLogged (⟨e₀, {}⟩, []) [addMessage 1 83 5 10000, replaceMessage 7 8 3 9900]).map
      Prod.fst = some (s, log) ∧
    log.length = 1 ∧ (s.engine.slots (0, .ask)).length = 1 ∧
    MatchingEngine.Recovers e₀ 1 s.engine := by
  have hrun : ((MatchingEngine.ofCapacity 4 none (some .fresh) none).bind fun e₀ =>
      (dispatch e₀ (.add 0 1 .sell 5 100)).bind fun r₁ =>
      (dispatch r₁.1 (.replace 0 7 8 3 99)).map fun r₂ =>
        (((callOfEvent e₀ (.add 0 1 .sell 5 100)).bind e₀.logged).toList.length,
          r₁.1.index.find 7, callOfEvent r₁.1 (.replace 0 7 8 3 99),
          (r₂.1.slots (0, .ask)).length))
      = some (1, some none, none, 1) := by
    decide +kernel
  simp only [Option.bind_eq_some_iff, Option.map_eq_some_iff, Prod.mk.injEq] at hrun
  obtain ⟨e₀, h₀, ⟨e₁, out₁⟩, he₁, ⟨e₂, out₂⟩, he₂, hlen, hfind, hcall, hslots⟩ := hrun
  obtain ⟨log, hlog⟩ : ∃ log, log =
      ((callOfEvent e₀ (.add 0 1 .sell 5 100)).bind e₀.logged).toList := ⟨_, rfl⟩
  have hstep₁ : processLogged (⟨e₀, {}⟩, []) (addMessage 1 83 5 10000)
      = some ((⟨e₁, {}⟩, log), out₁) := by
    rw [processLogged, processItchMessage_of_feed (.add 0 1 .sell 5 100) rfl, he₁, hlog]
    rfl
  have hstep₂ : processLogged (⟨e₁, {}⟩, log) (replaceMessage 7 8 3 9900)
      = some ((⟨e₂, {}⟩, log), out₂) := by
    rw [processLogged, processItchMessage_of_feed (.replace 0 7 8 3 99) rfl, he₂,
      show callOf ⟨e₁, {}⟩ (replaceMessage 7 8 3 9900) = none from hcall]
    simp
  have hp₁ : ReplaceFree [] (⟨e₀, {}⟩, []) (addMessage 1 83 5 10000) := by
    refine ⟨fun c _ => MatchingEngine.admissible_start h₀ c, fun l r n q p hev => ?_⟩
    exact absurd (show some (ItchEvent.add 0 1 .sell 5 100) = _ from hev) (by simp)
  have hp₂ : ReplaceFree [(addMessage 1 83 5 10000, out₁)] (⟨e₁, {}⟩, log)
      (replaceMessage 7 8 3 9900) := by
    refine ⟨fun c hc => absurd (hcall.symm.trans hc) (by simp), fun l r n q p hev => ?_⟩
    have hev' : some (ItchEvent.replace 0 7 8 3 99) = some (.replace l r n q p) := hev
    simp only [Option.some.injEq, ItchEvent.replace.injEq] at hev'
    obtain ⟨-, rfl, -⟩ := hev'
    exact hfind
  have t := (Trace.nil.snoc hp₁ hstep₁).snoc hp₂ hstep₂
  have hone : log.length = 1 := hlog ▸ hlen
  refine ⟨e₀, ⟨e₂, {}⟩, log, h₀, congrArg (Option.map Prod.fst) t.run_eq, hone, hslots, ?_⟩
  exact (replay_messages (n := 1) h₀ h₀ t (by rw [hone]; decide) hone.le).1

end

end TcpServer

end NebulaX
