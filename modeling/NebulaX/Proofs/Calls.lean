import NebulaX.Proofs.Engine

/-!
# `NebulaX.Proofs.Calls`: a call from the inside

What the operations are made of, in every engine, whether or not its invariant holds. A call is
opened (it is counted and its book is built), logged, and then refused or carried out.
`processAdd_eq` is the start of a new order and `exec_named` the start of the calls that name
an order; `actOn` is what those do with the slot that was found. What follows a match is
`After`: it logs nothing, trades nothing and writes one book.
-/

set_option autoImplicit false

namespace NebulaX

open NebulaX.Lib

namespace MatchingEngine

/-! ### Opened and logged -/

/-- The entry a call appends to the log. -/
def logged (e : MatchingEngine) : Call → Option WalEntry
  | .add locate orderRef side price quantity userId tif =>
      if Exchange.refusal locate orderRef side price quantity userId tif = none ∧ (tif = .fok →
          canFullFill (e.book locate) side (limitPrice tif side price) quantity = some true) then
        some { type := 0x01, side := if side = .buy then 0x01 else 0x02
               locate := locate.toUInt16, price := limitPrice tif side price
               quantity := quantity, userId := userId, orderId := orderRef
               walSeq := e.nextSequence + 1 }
      else none
  | .cancel locate orderRef userId =>
      if kMaxLocate ≤ locate then none
      else some { type := 0x02, locate := locate.toUInt16, userId := userId
                  orderId := orderRef, walSeq := e.nextSequence }
  | .cancelShares locate orderRef shares userId =>
      if kMaxLocate ≤ locate then none
      else some { type := 0x03, locate := locate.toUInt16, quantity := shares
                  userId := userId, orderId := orderRef, walSeq := e.nextSequence }
  | .replace locate _ newRef _ price quantity userId =>
      if kMaxLocate ≤ locate then none
      else some { type := 0x04, locate := locate.toUInt16, price := price
                  quantity := quantity, userId := userId, orderId := newRef
                  walSeq := e.nextSequence }

/-- The log file of an engine after `entry`. -/
def walAfter (wal : Option WalWriter) (entry : Option WalEntry) : Option WalWriter :=
  wal.map fun w => entry.elim w w.append

/-- The trade ring and the two counters that number its records. -/
def tape (e : MatchingEngine) : Option TradePool × UInt64 × UInt64 :=
  (e.tradePool, e.buyTradeId, e.sellTradeId)

/-- The engine a call works in: the book may have been built and the call counted. -/
structure Opened (e e₁ : MatchingEngine) : Prop extends Same e e₁ where
  wal : e₁.wal = e.wal
  tape : e₁.tape = e.tape

/-- The engine with the entry of the call in its log. -/
structure Logged (e : MatchingEngine) (c : Call) (e₁ : MatchingEngine) : Prop
    extends Same e e₁ where
  wal : e₁.wal = walAfter e.wal (e.logged c)
  tape : e₁.tape = e.tape

section
variable {e e₁ : MatchingEngine} {c : Call}

theorem Opened.refl (e : MatchingEngine) : Opened e e := ⟨Same.refl e, rfl, rfl⟩

theorem Opened.count (h : Opened e e₁) (f : IOCounters → IOCounters) : Opened e (e₁.count f) :=
  ⟨h.toSame.trans (Same.count e₁ f), h.wal, h.tape⟩

theorem Opened.of_bookFor {locate : UInt64} {f : IOCounters → IOCounters}
    (h : (e.count f).bookFor locate = some e₁) : Opened e e₁ := by
  rcases bookFor_spec (e.count f) locate with ⟨-, hnone⟩ | ⟨-, e₂, hopen, hs⟩
  · rw [hnone] at h
    cases h
  · obtain rfl : e₂ = e₁ := Option.some.inj (hopen.symm.trans h)
    refine ⟨(Same.count e f).trans hs, (bookFor_keeps h).1, ?_⟩
    unfold bookFor at h
    split at h
    · cases h
    · split at h
      · obtain rfl := Option.some.inj h
        rfl
      · obtain rfl := Option.some.inj h
        rfl

/-- A call that appends nothing. -/
theorem Opened.logged_none (h : Opened e e₁) (hc : e.logged c = none) : Logged e c e₁ := by
  refine ⟨h.toSame, ?_, h.tape⟩
  rw [h.wal, hc]
  cases e.wal <;> rfl

theorem Opened.logged (h : Opened e e₁) {entry : WalEntry} (hc : e.logged c = some entry) :
    Logged e c (e₁.log entry) := by
  refine ⟨h.toSame.trans (Same.log e₁ entry), ?_, h.tape⟩
  rw [hc, ← h.wal]
  rfl

/-- Storing a book as it is. -/
theorem Same.putBook_book (e : MatchingEngine) (locate : UInt64) :
    Same e (e.putBook locate (e.book locate)) :=
  ⟨by rw [levelsOf_putBook]; exact Function.update_eq_self _ _, rfl, rfl, rfl⟩

theorem Logged.putBook (h : Logged e c e₁) (locate : UInt64) :
    Logged e c (e₁.putBook locate (e₁.book locate)) :=
  ⟨h.toSame.trans (Same.putBook_book e₁ locate), h.wal, h.tape⟩

end

/-! ### The order a call names -/

/-- The start of the calls that name an order: there is no such book, or it is opened. -/
theorem opened_named (e : MatchingEngine) (locate : UInt64) :
    (kMaxLocate ≤ locate ∧
        (e.count fun c => { c with cancels := c.cancels + 1 }).bookFor locate = none) ∨
      (¬ kMaxLocate ≤ locate ∧ ∃ e₁,
        (e.count fun c => { c with cancels := c.cancels + 1 }).bookFor locate = some e₁ ∧
          Opened e e₁) := by
  rcases bookFor_spec (e.count fun c => { c with cancels := c.cancels + 1 }) locate with
    hnone | ⟨hl, e₁, hopen, -⟩
  · exact Or.inl hnone
  · exact Or.inr ⟨hl, e₁, hopen, .of_bookFor hopen⟩

/-- What a call does with the order it names, in slot `idx`. -/
def actOn (e : MatchingEngine) (idx : UInt32) :
    Call → Option (MatchingEngine × List BinaryResponse)
  | .add .. => none
  | .cancel locate ref _ => do
      let b ← (e.book locate).removeOrder idx
      return (e.putBook locate b, [.cancelled ref])
  | .cancelShares locate ref shares _ =>
      if (e.pool.storage idx).remainingQty ≤ shares then do
        let b ← (e.book locate).removeOrder idx
        return (e.putBook locate b, [.cancelled ref])
      else
        some (e.putBook locate ((e.book locate).reduceQtyCancel idx shares), [.ok ref])
  | .replace locate _ newRef side price quantity _ => do
      let (e, order, out) ← e.submitReplace locate idx newRef side price quantity
      e.finishReplace locate order out

/-- How a call that names the order `ref` of `userId` comes out: it finds no such order and
changes nothing, it acts on the slot it found, or the index does not answer. -/
inductive Named (e : MatchingEngine) (c : Call) (ref userId : UInt64)
    (r : Option (MatchingEngine × List BinaryResponse)) : Prop
  | missing (e₁ : MatchingEngine) (hs : Logged e c e₁)
      (hmiss : kMaxLocate ≤ c.locate ∨ e.Misses ref userId)
      (hr : r = some (e₁.reject .orderNotFound))
  | found (e₁ : MatchingEngine) (idx : UInt32) (hs : Logged e c e₁)
      (hl : ¬ kMaxLocate ≤ c.locate) (hfind : e.index.find ref = some (some idx))
      (huser : (e.pool.storage idx).userId = userId) (hr : r = e₁.actOn idx c)
  | stuck (hl : ¬ kMaxLocate ≤ c.locate) (hfind : e.index.find ref = none) (hr : r = none)

section
variable {e : MatchingEngine} {c : Call} {ref userId : UInt64}

theorem exec_named (hn : c.named? = some (ref, userId)) : Named e c ref userId (e.exec c) := by
  rcases opened_named e c.locate with ⟨hl, hnone⟩ | ⟨hl, e₁, hsome, ho⟩
  · have hlog : e.logged c = none := by
      cases c with
      | add => cases hn
      | _ => exact if_pos hl
    refine .missing _ (((Opened.refl e).count fun c =>
      { c with cancels := c.cancels + 1 }).logged_none hlog) (Or.inl hl) ?_
    cases c with
    | add => cases hn
    | _ =>
        simp only [Call.locate] at hnone
        simp only [exec, processCancel, processCancelShares, processReplace, hnone]
  · obtain ⟨entry, hlog⟩ : ∃ entry, e.logged c = some entry := by
      cases c with
      | add => cases hn
      | _ => exact ⟨_, if_neg hl⟩
    have hs := ho.logged hlog
    -- The three calls look the reference up alike. A cancel also stores the book it searched.
    obtain ⟨e₂, hs₂, hexec⟩ : ∃ e₂, Logged e c e₂ ∧
        e.exec c = (e.index.find ref).bind fun found =>
          found.elim (some (e₂.reject .orderNotFound)) fun idx =>
            if (e.pool.storage idx).userId = userId then (e₁.log entry).actOn idx c
            else some (e₂.reject .orderNotFound) := by
      rw [← hs.index, ← hs.pool]
      cases c with
      | add => cases hn
      | cancel l =>
          cases hn
          refine ⟨_, hs.putBook l, ?_⟩
          obtain rfl := Option.some.inj ((if_neg hl).symm.trans hlog)
          simp only [Call.locate] at hsome
          simp only [exec, processCancel, hsome, OrderBook.removeOrderById, ← ho.nextSequence,
            book]
          generalize e₁.log _ = e₂
          rcases e₂.index.find ref with - | - | idx
          · rfl
          · rfl
          · by_cases hu : (e₂.pool.storage idx).userId = userId <;>
              simp [hu, actOn, book, Option.bind_assoc]
      | cancelShares l =>
          cases hn
          refine ⟨_, hs, ?_⟩
          obtain rfl := Option.some.inj ((if_neg hl).symm.trans hlog)
          simp only [Call.locate] at hsome
          simp only [exec, processCancelShares, hsome, OrderBook.findOrder, ← ho.nextSequence,
            book]
          generalize e₁.log _ = e₂
          rcases e₂.index.find ref with - | - | idx
          · rfl
          · rfl
          · by_cases hu : (e₂.pool.storage idx).userId = userId <;> simp [hu, actOn, book]
      | replace l =>
          cases hn
          refine ⟨_, hs, ?_⟩
          obtain rfl := Option.some.inj ((if_neg hl).symm.trans hlog)
          simp only [Call.locate] at hsome
          simp only [exec, processReplace, hsome, OrderBook.findOrder, ← ho.nextSequence,
            book]
          generalize e₁.log _ = e₂
          rcases e₂.index.find ref with - | - | idx
          · rfl
          · rfl
          · by_cases hu : (e₂.pool.storage idx).userId = userId <;> simp [hu, actOn]
    cases hfind : e.index.find ref with
    | none => exact .stuck hl hfind (by rw [hexec, hfind]; rfl)
    | some found =>
        cases found with
        | none =>
            exact .missing e₂ hs₂ (Or.inr (Or.inl hfind)) (by rw [hexec, hfind]; rfl)
        | some idx =>
            by_cases hu : (e.pool.storage idx).userId = userId
            · exact .found _ idx (ho.logged hlog) hl hfind hu (by simp [hexec, hfind, hu])
            · exact .missing e₂ hs₂ (Or.inr (Or.inr ⟨idx, hfind, hu⟩))
                (by simp [hexec, hfind, hu])

/-- The index answers, and with no order of the user. -/
theorem Misses.ne (hm : e.Misses ref userId) :
    e.index.find ref ≠ none ∧
      ∀ idx, e.index.find ref = some (some idx) → (e.pool.storage idx).userId ≠ userId := by
  rcases hm with hnone | ⟨i, hi, hother⟩
  · exact ⟨by simp [hnone], fun idx hfind => by cases hnone.symm.trans hfind⟩
  · refine ⟨by simp [hi], fun idx hfind => ?_⟩
    cases hi.symm.trans hfind
    exact hother

/-- A call that names an order the index does not find, or no book, answers that there is
no such order and changes nothing. -/
theorem exec_missing (hn : c.named? = some (ref, userId))
    (hmiss : kMaxLocate ≤ c.locate ∨ e.Misses ref userId) :
    ∃ e', e.exec c = some (e', [.error .orderNotFound]) ∧ Same e e' := by
  cases exec_named (e := e) hn with
  | missing e₁ hs _ hr => exact ⟨_, hr, hs.toSame.trans (Same.count e₁ _)⟩
  | found e₁ idx _ hl hfind huser _ =>
      exact absurd huser ((hmiss.resolve_left hl).ne.2 idx hfind)
  | stuck hl hfind _ => exact absurd hfind (hmiss.resolve_left hl).ne.1

/-- A call that names an order the index finds, of that user, acts on its slot. -/
theorem exec_found (hn : c.named? = some (ref, userId)) (hl : ¬ kMaxLocate ≤ c.locate)
    {idx : UInt32} (hfind : e.index.find ref = some (some idx))
    (huser : (e.pool.storage idx).userId = userId) :
    ∃ e₂, Same e e₂ ∧ e.exec c = e₂.actOn idx c := by
  cases exec_named (e := e) hn with
  | missing _ _ hmiss _ => exact absurd huser ((hmiss.resolve_left hl).ne.2 idx hfind)
  | found e₁ i hs _ hi _ hr =>
      cases hfind.symm.trans hi
      exact ⟨e₁, hs.toSame, hr⟩
  | stuck _ hnone _ => cases hfind.symm.trans hnone

end

/-! ### A new order -/

/-- The checks of `processAdd`: a refusal is an error answer, and otherwise the order goes
on in the opened book. -/
theorem processAdd_eq (e : MatchingEngine) (locate orderRef : UInt64) (side : Side)
    (price quantity : UInt32) (userId : UInt64) (tif : OrderTif) :
    (∃ code e', Exchange.refusal locate orderRef side price quantity userId tif = some code ∧
        e.processAdd locate orderRef side price quantity userId tif
          = some (e', [.error code]) ∧ Opened e e') ∨
      (Exchange.refusal locate orderRef side price quantity userId tif = none ∧
        ∃ e', (e.count fun c => { c with newOrders := c.newOrders + 1 }).bookFor locate
            = some e' ∧ Opened e e' ∧ side ≠ .invalid ∧
          e.processAdd locate orderRef side price quantity userId tif
            = if tif = .fok then do
                if ← canFullFill (e'.book locate) side (limitPrice tif side price) quantity then
                  e'.addChecked locate orderRef side price quantity userId tif
                else return e'.reject .fokNoFullFill
              else e'.addChecked locate orderRef side price quantity userId tif) := by
  unfold processAdd Exchange.refusal
  rcases bookFor_spec (e.count fun c => { c with newOrders := c.newOrders + 1 }) locate with
    ⟨hl, hnone⟩ | ⟨hl, e₁, hsome, -⟩
  · simp only [hnone, if_pos hl]
    exact Or.inl ⟨_, _, rfl, rfl, ((Opened.refl e).count _).count _⟩
  · have ho : Opened e e₁ := .of_bookFor hsome
    simp only [hsome, if_neg hl]
    by_cases hside : side = .invalid
    · rw [if_pos hside, if_pos hside]
      exact Or.inl ⟨_, _, rfl, rfl, ho.count _⟩
    · rw [if_neg hside, if_neg hside]
      by_cases hbad : (isMarket tif price = false ∧ price = 0) ∨ quantity = 0 ∨ userId = 0
          ∨ orderRef = 0
      · rw [if_pos hbad, if_pos (by simpa [or_assoc] using hbad)]
        exact Or.inl ⟨_, _, rfl, rfl, ho.count _⟩
      · rw [if_neg hbad, if_neg (by simpa [or_assoc] using hbad)]
        exact Or.inr ⟨rfl, e₁, rfl, ho, hside, rfl⟩

/-- The checks a new order passes before it is matched. -/
def Passes (e : MatchingEngine) (locate orderRef : UInt64) (side : Side) (price quantity : UInt32)
    (userId : UInt64) (tif : OrderTif) : Prop :=
  Exchange.refusal locate orderRef side price quantity userId tif = none ∧ (tif = .fok →
    canFullFill (e.book locate) side (limitPrice tif side price) quantity = some true)

/-- The checks of `processAdd`: it refuses the order, or goes on with it. -/
theorem processAdd_cases {e : MatchingEngine} {locate orderRef : UInt64} {side : Side}
    {price quantity : UInt32} {userId : UInt64} {tif : OrderTif}
    {r : MatchingEngine × List BinaryResponse}
    (h : e.processAdd locate orderRef side price quantity userId tif = some r) :
    (¬ e.Passes locate orderRef side price quantity userId tif ∧
        ∃ e₁ code, Opened e e₁ ∧ r = (e₁, [.error code])) ∨
      (e.Passes locate orderRef side price quantity userId tif ∧
        ∃ e₁, Opened e e₁ ∧
          e₁.addChecked locate orderRef side price quantity userId tif = some r) := by
  rcases processAdd_eq e locate orderRef side price quantity userId tif with
    ⟨code, e₁, href, heq, ho⟩ | ⟨href, e₁, -, ho, -, heq⟩
  · refine Or.inl ⟨fun hpass => ?_, e₁, code, ho, Option.some.inj (h.symm.trans heq)⟩
    cases href.symm.trans hpass.1
  · rw [heq] at h
    rw [Passes, ← ho.toSame.book locate]
    split at h
    · rename_i htif
      cases hfull : canFullFill (e₁.book locate) side (limitPrice tif side price) quantity with
      | none => simp [hfull] at h
      | some full =>
          rw [hfull] at h
          cases full with
          | true => exact Or.inr ⟨⟨href, fun _ => rfl⟩, e₁, ho, h⟩
          | false =>
              cases h
              exact Or.inl ⟨fun hpass => (by simpa using hpass.2 htif), _, _, ho.count _, rfl⟩
    · rename_i htif
      exact Or.inr ⟨⟨href, fun hfok => absurd hfok htif⟩, e₁, ho, h⟩

/-- The engine the order of `processAdd` is matched in: the number is drawn and the order
is logged. -/
theorem submitAdd_prepared (e : MatchingEngine) (locate orderRef : UInt64) (side : Side)
    (price quantity : UInt32) (userId : UInt64) (tif : OrderTif) :
    ∃ e', e.submitAdd locate orderRef side price quantity userId tif
        = e'.matchSide locate
          (e.newOrder orderRef side (limitPrice tif side price) quantity userId) ∧
      Same e.bumpSequence e' :=
  ⟨_, rfl, Same.log _ _⟩

/-! ### The match, and what follows it -/

section
variable {e : MatchingEngine} {locate : UInt64} {order : Order} {out : List BinaryResponse}
variable {r : MatchingEngine × List BinaryResponse}

/-- A match is a run of the loop against the other side of the book. -/
theorem matchSide_inv {r : MatchingEngine × Order × List BinaryResponse}
    (h : e.matchSide locate order = some r) :
    ∃ d st, d = order.side.bookSide.opposite ∧
      matchLoop d locate e.nextSequence (e.pool.capacity + 1)
        { book := e.book locate, order := order, out := [], metrics := e.metrics
          tradePool := e.tradePool, tradeId := e.tradeId d } = some st ∧
      r = (e.afterMatch d locate st, st.order, st.out) := by
  rw [matchSide_eq] at h
  simp only [matchOrder, Option.bind_eq_bind, Option.bind_eq_some_iff, pure,
    Option.some.injEq] at h
  obtain ⟨st, hloop, rfl⟩ := h
  exact ⟨_, st, rfl, hloop, rfl⟩

/-- What becomes of `e` and the answers `out` once an order was matched or taken off: at most
the book of the call is written, and something is said that is no trade. -/
structure After (e : MatchingEngine) (locate : UInt64) (out : List BinaryResponse)
    (r : MatchingEngine × List BinaryResponse) : Prop where
  wal : r.1.wal = e.wal
  tape : r.1.tape = e.tape
  nextSequence : r.1.nextSequence = e.nextSequence
  others : ∀ l, l ≠ locate → r.1.levelsOf l = e.levelsOf l
  out : ∃ tail, r.2 = out ++ tail ∧ (∀ t, .trade t ∉ tail) ∧ .error .orderNotFound ∉ tail

theorem After.same {e' : MatchingEngine} (h : Opened e e') (tail : List BinaryResponse)
    (htrade : ∀ t, .trade t ∉ tail) (herror : .error .orderNotFound ∉ tail) :
    After e locate out (e', out ++ tail) :=
  ⟨h.wal, h.tape, h.nextSequence, fun l _ => by rw [h.levelsOf], tail, rfl, htrade, herror⟩

/-- The book of the call is stored. -/
theorem After.putBook (b : OrderBook) (h : After (e.putBook locate b) locate out r) :
    After e locate out r where
  wal := h.wal
  tape := h.tape
  nextSequence := h.nextSequence
  others l hl := by rw [h.others l hl, levelsOf_putBook, Function.update_of_ne hl]
  out := h.out

theorem After.answered (b : OrderBook) {answer : BinaryResponse}
    (ha : (∃ ref, answer = .cancelled ref) ∨ ∃ ref, answer = .ok ref) :
    After e locate [] (e.putBook locate b, [answer]) := by
  refine .putBook b (.same (.refl _) [answer] ?_ ?_) <;>
    rcases ha with ⟨ref, rfl⟩ | ⟨ref, rfl⟩ <;> simp

theorem restOrder_after (h : e.restOrder locate order out = some r) : After e locate out r := by
  simp only [restOrder, Option.bind_eq_bind, Option.bind_eq_some_iff] at h
  obtain ⟨⟨added, b⟩, -, h⟩ := h
  have hb := Opened.refl (e.putBook locate b)
  cases added <;> cases h
  · exact .putBook b (.same ((hb.count _).count _) _ (by simp) (by simp))
  · exact .putBook b (.same (hb.count _) _ (by simp) (by simp))

theorem finishAdd_after {quantity : UInt32} {tif : OrderTif}
    (h : e.finishAdd locate order quantity tif out = some r) : After e locate out r := by
  have he := Opened.refl e
  have hnone : After e locate out (e, out ++ []) := .same he [] (by simp) (by simp)
  rw [List.append_nil] at hnone
  unfold finishAdd at h
  split_ifs at h
  · cases h
    exact .same (he.count _) _ (by simp) (by simp)
  · cases h
    exact .same (he.count _) _ (by simp) (by simp)
  · cases h
    exact hnone
  · cases h
    exact .same (he.count _) _ (by simp) (by simp)
  · cases h
    exact hnone
  · exact restOrder_after h
  · cases h
    exact hnone

theorem finishReplace_after (h : e.finishReplace locate order out = some r) :
    After e locate out r := by
  have he := Opened.refl e
  unfold finishReplace at h
  split_ifs at h
  · exact restOrder_after h
  · cases h
    exact .same he _ (by simp) (by simp)
  · cases h
    have hnone : After e locate out (e, out ++ []) := .same he [] (by simp) (by simp)
    rwa [List.append_nil] at hnone

/-- The slot a call found: the order is taken off or reduced, or it is replaced and the new
one is matched. -/
theorem actOn_cases {c : Call} {idx : UInt32} (h : e.actOn idx c = some r) :
    (c.draws = false ∧ After e c.locate [] r) ∨
      ∃ locate oldRef newRef side price quantity userId b e₂ left out,
        c = .replace locate oldRef newRef side price quantity userId ∧
        (e.book locate).removeOrder idx = some b ∧
        (e.putBook locate b).bumpSequence.matchSide locate
          (e.newOrder newRef side price quantity newRef) = some (e₂, left, out) ∧
        After e₂ locate out r := by
  cases c with
  | add => cases h
  | cancel l ref =>
      obtain ⟨b, -, h⟩ := Option.bind_eq_some_iff.mp h
      cases h
      exact Or.inl ⟨rfl, .answered b (Or.inl ⟨ref, rfl⟩)⟩
  | cancelShares l ref shares =>
      simp only [actOn] at h
      split at h
      · obtain ⟨b, -, h⟩ := Option.bind_eq_some_iff.mp h
        cases h
        exact Or.inl ⟨rfl, .answered b (Or.inl ⟨ref, rfl⟩)⟩
      · cases h
        exact Or.inl ⟨rfl, .answered _ (Or.inr ⟨ref, rfl⟩)⟩
  | replace l =>
      obtain ⟨⟨e₂, left, out⟩, hsub, hfin⟩ := Option.bind_eq_some_iff.mp h
      obtain ⟨b, hb, hm⟩ := Option.bind_eq_some_iff.mp hsub
      exact Or.inr ⟨_, _, _, _, _, _, _, b, e₂, left, out, rfl, hb, hm, finishReplace_after hfin⟩

end

end MatchingEngine

end NebulaX
