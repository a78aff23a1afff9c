import NebulaX.Proofs.Match

/-!
# `NebulaX.Proofs.Engine`: every call is a step of the exchange

`MatchingEngine.Inv` is the invariant of an engine between calls and `MatchingEngine.abs`
the exchange it stands for. The pieces of the operations come first: opening a book,
matching, resting what is left, and finding the order a call names.

`exec_spec` is the result: a call that brings in a fresh reference and names an order in
the book it rests in comes back, keeps the invariant, and is `Exchange.step`.

`Advance` records what a call does to the slots and to the sequence counter: slots leave,
and then at most one enters, with the number the call drew.
-/

set_option autoImplicit false

namespace NebulaX

open NebulaX.Lib

namespace MatchingEngine

variable {e e' : MatchingEngine} {locate ref : UInt64} {i : UInt32}

/-- The books, the pool and the index of the engine are in step. -/
def Inv (e : MatchingEngine) : Prop := Rep e.levelsOf e.pool e.index

/-- The exchange the engine stands for. -/
def abs (e : MatchingEngine) : Exchange := absOf e.levelsOf e.pool e.index

/-- The slots of a side of a book, in serving order. -/
def slots (e : MatchingEngine) (π : Place) : List UInt32 :=
  placeSlots e.levelsOf e.pool.storage π

/-- The engines differ in their counters, logs and empty books only. -/
structure Same (e e' : MatchingEngine) : Prop where
  levelsOf : e'.levelsOf = e.levelsOf
  pool : e'.pool = e.pool
  index : e'.index = e.index
  nextSequence : e'.nextSequence = e.nextSequence

namespace Same

variable {e'' : MatchingEngine}

theorem refl (e : MatchingEngine) : Same e e := ⟨rfl, rfl, rfl, rfl⟩

theorem trans (h : Same e e') (h' : Same e' e'') : Same e e'' :=
  ⟨h'.levelsOf.trans h.levelsOf, h'.pool.trans h.pool, h'.index.trans h.index,
    h'.nextSequence.trans h.nextSequence⟩

theorem count (e : MatchingEngine) (f : IOCounters → IOCounters) : Same e (e.count f) :=
  ⟨rfl, rfl, rfl, rfl⟩

theorem log (e : MatchingEngine) (entry : WalEntry) : Same e (e.log entry) :=
  ⟨rfl, rfl, rfl, rfl⟩

theorem inv (h : Same e e') (hi : e.Inv) : e'.Inv := by
  unfold Inv
  rw [h.levelsOf, h.pool, h.index]
  exact hi

theorem abs (h : Same e e') : e'.abs = e.abs := by
  unfold MatchingEngine.abs
  rw [h.levelsOf, h.pool, h.index]

theorem book (h : Same e e') (locate : UInt64) : e'.book locate = e.book locate := by
  unfold MatchingEngine.book
  rw [h.levelsOf, h.pool, h.index]

end Same

/-- The engines have the same books, the same pool and the same index. -/
structure SameBooks (e e' : MatchingEngine) : Prop where
  levelsOf : e'.levelsOf = e.levelsOf
  pool : e'.pool = e.pool
  index : e'.index = e.index

theorem Same.sameBooks (h : Same e e') : SameBooks e e' :=
  ⟨h.levelsOf, h.pool, h.index⟩

theorem SameBooks.symm (h : SameBooks e e') : SameBooks e' e :=
  ⟨h.levelsOf.symm, h.pool.symm, h.index.symm⟩

theorem SameBooks.trans {e'' : MatchingEngine} (h : SameBooks e e') (h' : SameBooks e' e'') :
    SameBooks e e'' :=
  ⟨h'.levelsOf.trans h.levelsOf, h'.pool.trans h.pool, h'.index.trans h.index⟩

theorem SameBooks.inv (h : SameBooks e e') (hi : e.Inv) : e'.Inv := by
  unfold Inv
  rw [h.levelsOf, h.pool, h.index]
  exact hi

theorem SameBooks.slots (h : SameBooks e e') (π : Place) :
    e'.slots π = e.slots π := by
  unfold MatchingEngine.slots
  rw [h.levelsOf, h.pool]

theorem Same.mem_slots (h : Same e e') {π : Place} (hi : i ∈ e.slots π) : i ∈ e'.slots π := by
  rw [h.sameBooks.slots]
  exact hi

/-! ### Opening a book -/

/-- `book_for` fails out of range, and otherwise changes nothing but that the book is
there. -/
theorem bookFor_spec (e : MatchingEngine) (locate : UInt64) :
    (kMaxLocate ≤ locate ∧ e.bookFor locate = none) ∨
      (¬ kMaxLocate ≤ locate ∧ ∃ e', e.bookFor locate = some e' ∧ Same e e') := by
  unfold bookFor
  by_cases hl : kMaxLocate ≤ locate
  · exact Or.inl ⟨hl, if_pos hl⟩
  · refine Or.inr ⟨hl, ?_⟩
    rw [if_neg hl]
    cases hb : e.books locate with
    | some b => exact ⟨e, rfl, Same.refl e⟩
    | none =>
        refine ⟨_, rfl, ?_, rfl, rfl, rfl⟩
        funext l
        by_cases h : l = locate
        · subst h
          simp [levelsOf, hb]
        · simp [levelsOf, h]

/-- Opening a book keeps the log and the counters. -/
theorem bookFor_keeps (h : e.bookFor locate = some e') :
    e'.wal = e.wal ∧ e'.nextOrderId = e.nextOrderId ∧ e'.nextSequence = e.nextSequence := by
  unfold bookFor at h
  split at h
  · exact absurd h (by simp)
  · split at h
    · obtain rfl := Option.some.inj h
      exact ⟨rfl, rfl, rfl⟩
    · obtain rfl := Option.some.inj h
      exact ⟨rfl, rfl, rfl⟩

theorem bookFor_metrics (h : e.bookFor locate = some e') : e'.metrics = e.metrics := by
  unfold bookFor at h
  split at h
  · exact absurd h (by simp)
  · split at h
    · obtain rfl := Option.some.inj h
      rfl
    · obtain rfl := Option.some.inj h
      rfl

/-- The books after an operation on one of them. -/
theorem levelsOf_putBook (e : MatchingEngine) (locate : UInt64) (b : OrderBook) :
    (e.putBook locate b).levelsOf = Function.update e.levelsOf locate b.toBookLevels := by
  funext l
  by_cases h : l = locate
  · subst h
    simp [levelsOf, putBook]
  · simp [levelsOf, putBook, h]

/-! ### Matching -/

/-- The incoming order after the match. -/
def takerOf (x : Exchange) (locate : UInt64) (order : Order) : Order :=
  { order with toOrderInfo := (x.fills locate order.toOrderInfo).taker order.toOrderInfo }

theorem matchSide_eq (e : MatchingEngine) (locate : UInt64) (order : Order) :
    e.matchSide locate order = matchOrder order.side.bookSide.opposite e locate order := by
  unfold matchSide
  cases order.side <;> rfl

/-- What the matching loop makes of the engine. -/
theorem matchSide_spec (h : e.Inv) (locate : UInt64) (order : Order) :
    ∃ e', e.matchSide locate order = some (e', takerOf e.abs locate order,
        (e.abs.fills locate order.toOrderInfo).frames locate order.side.bookSide.opposite) ∧
      e'.Inv ∧ e'.abs = e.abs.matched locate order.toOrderInfo ∧
      Shrinks e.levelsOf e'.levelsOf e.pool e'.pool ∧
      e'.pool.capacity = e.pool.capacity ∧ e'.nextSequence = e.nextSequence := by
  obtain ⟨d, hd⟩ : ∃ d, d = order.side.bookSide.opposite := ⟨_, rfl⟩
  rw [matchSide_eq, ← hd]
  obtain ⟨st', hloop, hm, -⟩ := matchLoop_spec e.nextSequence (d := d)
    { book := e.book locate, order := order, out := [], metrics := e.metrics
      tradePool := e.tradePool, tradeId := e.tradeId d }
    (e.pool.capacity + 1) h rfl (Nat.lt_succ_of_le (h.toBooksRep.length_le (locate, d)))
  have hfills : greedy d order.userId order.price order.remainingQty
      ((absOf e.levelsOf e.pool e.index).queues (locate, d))
      = e.abs.fills locate order.toOrderInfo := by
    rw [hd]
    rfl
  have hlev : (e.afterMatch d locate st').levelsOf
      = Function.update e.levelsOf locate st'.book.toBookLevels := e.levelsOf_putBook locate _
  change Matched e.levelsOf e.pool e.index locate d (greedy d order.userId order.price
    order.remainingQty ((absOf e.levelsOf e.pool e.index).queues (locate, d))) _ _ at hm
  rw [hfills] at hm
  refine ⟨e.afterMatch d locate st', ?_, ?_, ?_, ?_, hm.capacity, rfl⟩
  · have ho := hm.order
    have hout := hm.out
    simp only at ho hout
    rw [List.nil_append] at hout
    simp [matchOrder, hloop, ho, hout, takerOf]
  · unfold Inv
    rw [hlev]
    exact hm.rep
  · unfold MatchingEngine.abs
    rw [hlev]
    refine hm.abs.trans ?_
    rw [Exchange.matched, ← hd]
    rfl
  · rw [hlev]
    exact hm.shrinks

/-! ### Resting -/

/-- An order `addOrder` refuses leaves the books as they were. -/
theorem restOrder_refused (h : e.Inv) (locate : UInt64) {order : Order} (out : List BinaryResponse)
    (hr : order.side = .invalid ∨ e.pool.freeCount = 0) :
    ∃ e', e.restOrder locate order out = some (e', out ++ [.error .poolFull]) ∧ Same e e' := by
  have hlev : (e.putBook locate (e.book locate)).levelsOf = e.levelsOf := by
    rw [levelsOf_putBook]
    exact Function.update_eq_self _ _
  refine ⟨((e.putBook locate (e.book locate)).count fun c =>
    { c with errors := c.errors + 1 }).countPool, ?_, hlev, rfl, rfl, rfl⟩
  rw [restOrder, show (e.book locate).addOrder order = some (false, e.book locate) from
    h.toBooksRep.addOrder_refused locate hr e.index]
  rfl

/-- `addOrder` behind the matching loop, with its answer. `keep` is what the index does
with the new entry. -/
theorem restOrder_spec (h : e.Inv) (locate : UInt64) (order : Order) (out : List BinaryResponse)
    {keep : Bool} (hnew : e.abs.Absent order.orderId)
    (hkeep : order.side ≠ .invalid → e.pool.freeCount ≠ 0 →
      keep = !decide (e.index.DropsInsert order.orderId)) :
    ∃ e', e.restOrder locate order out
        = some (e', out ++ [(e.abs.rest keep locate order.toOrderInfo).2]) ∧
      e'.Inv ∧ e'.abs = (e.abs.rest keep locate order.toOrderInfo).1 ∧
      e'.pool.capacity = e.pool.capacity ∧ e'.nextSequence = e.nextSequence ∧
      ((e'.levelsOf = e.levelsOf ∧ e'.pool = e.pool) ∨
        ∃ π idx l r, π.1 = locate ∧
          Entry e.levelsOf e'.levelsOf e.pool e'.pool π order idx l r) := by
  by_cases hr : order.side = .invalid ∨ e.pool.freeCount = 0
  · -- Refused: the book is as it was.
    obtain ⟨e', heq, hsame⟩ := restOrder_refused h locate out hr
    have hrest : e.abs.rest keep locate order.toOrderInfo = (e.abs, .error .poolFull) := by
      rw [Exchange.rest, if_pos (show _ ∨ e.abs.free = 0 from hr)]
    rw [hrest]
    exact ⟨e', heq, hsame.inv h, hsame.abs, by rw [hsame.pool], hsame.nextSequence,
      Or.inl ⟨hsame.levelsOf, hsame.pool⟩⟩
  · obtain ⟨hside, hfree⟩ := not_or.mp hr
    obtain ⟨b', idx, l, r, hadd, hrep, habs, hent⟩ := h.addOrder locate hside hfree hnew
    have hlev := e.levelsOf_putBook locate b'
    rw [← hlev] at hrep habs hent
    rw [← hkeep hside hfree] at habs
    have hrest : e.abs.rest keep locate order.toOrderInfo
        = (e.abs.enter keep locate order.toOrderInfo, .ok order.orderId) := by
      rw [Exchange.rest, if_neg (show ¬ (_ ∨ e.abs.free = 0) from hr)]
    refine ⟨(e.putBook locate b').countPool, ?_, hrep, ?_, hent.capacity, rfl,
      Or.inr ⟨_, idx, l, r, rfl, hent⟩⟩
    · rw [restOrder, show e.book locate = ⟨e.levelsOf locate, e.pool, e.index⟩ from rfl, hadd,
        hrest]
      rfl
    · rw [hrest]
      exact habs

/-! ### Steps -/

/-- What a call does to the slots and to the sequence counter: slots leave, and then at
most one enters the book of the call, with the number the call drew. -/
inductive Advance (locate : UInt64) (e e' : MatchingEngine) : Prop where
  | leave (hsh : Shrinks e.levelsOf e'.levelsOf e.pool e'.pool)
      (hseq : e'.nextSequence = e.nextSequence ∨ e'.nextSequence = e.nextSequence + 1)
  | enter (e₁ : MatchingEngine) (π : Place) (order : Order) (idx : UInt32)
      (l r : List UInt32) (hsh : Shrinks e.levelsOf e₁.levelsOf e.pool e₁.pool)
      (hent : Entry e₁.levelsOf e'.levelsOf e₁.pool e'.pool π order idx l r)
      (hbook : π.1 = locate) (horder : order.sequence = e.nextSequence)
      (hseq : e'.nextSequence = e.nextSequence + 1)

/-- A call draws one number or none. -/
theorem Advance.nextSequence (h : Advance locate e e') :
    e'.nextSequence = e.nextSequence ∨ e'.nextSequence = e.nextSequence + 1 := by
  cases h with
  | leave _ hseq => exact hseq
  | enter _ _ _ _ _ _ _ _ _ _ hseq => exact Or.inr hseq

/-- The call to the book of `locate` came back with `r`, which is the step `x` of the
exchange. -/
structure StepsTo (locate : UInt64) (e : MatchingEngine) (x : Exchange × List BinaryResponse)
    (r : MatchingEngine × List BinaryResponse) : Prop where
  inv : r.1.Inv
  abs : (r.1.abs, r.2) = x
  capacity : r.1.pool.capacity = e.pool.capacity
  advance : Advance locate e r.1

/-- A call that changes counters and logs only. -/
theorem StepsTo.of_same {out : List BinaryResponse} (h : e.Inv) (hs : Same e e') :
    StepsTo locate e (e.abs, out) (e', out) where
  inv := hs.inv h
  abs := by rw [hs.abs]
  capacity := by rw [hs.pool]
  advance := .leave (by rw [hs.levelsOf, hs.pool]; exact Shrinks.refl _ _)
    (Or.inl hs.nextSequence)

/-- Counters and logs before a call do not matter to it. -/
theorem StepsTo.from_same {x : Exchange × List BinaryResponse}
    {r : MatchingEngine × List BinaryResponse} (hs : Same e e') (h : StepsTo locate e' x r) :
    StepsTo locate e x r where
  inv := h.inv
  abs := h.abs
  capacity := by rw [h.capacity, hs.pool]
  advance := by
    obtain ⟨-, -, -, ha⟩ := h
    cases ha with
    | leave hsh hseq =>
        rw [hs.levelsOf, hs.pool] at hsh
        rw [hs.nextSequence] at hseq
        exact .leave hsh hseq
    | enter e₁ π order idx l r hsh hent hbook horder hseq =>
        rw [hs.levelsOf, hs.pool] at hsh
        rw [hs.nextSequence] at horder hseq
        exact .enter e₁ π order idx l r hsh hent hbook horder hseq

/-- An order that may rest, from the matching loop on. `e₀` is the engine before the call
and `e` the one the order is matched in, with the sequence number drawn. -/
theorem submitDay_spec {e₀ : MatchingEngine} (locate : UInt64) (order : Order) (h : e.Inv)
    (hnew : e.abs.Absent order.orderId) (hcap : e.pool.capacity = e₀.pool.capacity)
    (hsh : Shrinks e₀.levelsOf e.levelsOf e₀.pool e.pool)
    (hseq : e.nextSequence = e₀.nextSequence + 1) (horder : order.sequence = e₀.nextSequence) :
    ∃ e₁, e.matchSide locate order = some (e₁, takerOf e.abs locate order,
        (e.abs.fills locate order.toOrderInfo).frames locate order.side.bookSide.opposite) ∧
      e₁.Inv ∧
      ((takerOf e.abs locate order).status = .filled → ∀ keep e', Same e₁ e' →
        StepsTo locate e₀ (e.abs.submitDay keep locate order.toOrderInfo) (e',
          (e.abs.fills locate order.toOrderInfo).frames locate order.side.bookSide.opposite
            ++ [.filled order.orderId])) ∧
      ((takerOf e.abs locate order).status ≠ .filled → ∀ keep,
        (order.side ≠ .invalid → e₁.pool.freeCount ≠ 0 →
          keep = !decide (e₁.index.DropsInsert order.orderId)) →
        ∃ r, e₁.restOrder locate (takerOf e.abs locate order)
            ((e.abs.fills locate order.toOrderInfo).frames locate
              order.side.bookSide.opposite) = some r ∧
          StepsTo locate e₀ (e.abs.submitDay keep locate order.toOrderInfo) r) := by
  obtain ⟨e₁, hm, hinv, habs, hsh₁, hcap₁, hseq₁⟩ := matchSide_spec h locate order
  refine ⟨e₁, hm, hinv, fun hf keep e' hsame => ?_, fun hf keep hkeep => ?_⟩
  · constructor
    case inv => exact hsame.inv hinv
    case abs =>
      change ((e.abs.fills locate order.toOrderInfo).taker order.toOrderInfo).status = _ at hf
      simp only [Exchange.submitDay]
      rw [if_pos hf, hsame.abs, habs]
    case capacity =>
      show e'.pool.capacity = _
      rw [hsame.pool, hcap₁, hcap]
    case advance =>
      refine .leave ?_ (Or.inr ?_)
      · show Shrinks e₀.levelsOf e'.levelsOf e₀.pool e'.pool
        rw [hsame.levelsOf, hsame.pool]
        exact hsh.trans hsh₁
      · show e'.nextSequence = _
        rw [hsame.nextSequence, hseq₁, hseq]
  · obtain ⟨e', hrest, hinv', habs', hcap', hseq', hslots⟩ := restOrder_spec
      hinv locate (takerOf e.abs locate order) _
      (by rw [habs]; exact hnew.matched locate order.toOrderInfo) hkeep
    refine ⟨_, hrest, hinv', ?_, ?_, ?_⟩
    · change ((e.abs.fills locate order.toOrderInfo).taker order.toOrderInfo).status ≠ _ at hf
      simp only [Exchange.submitDay]
      rw [if_neg hf, habs', habs]
      rfl
    · show e'.pool.capacity = _
      rw [hcap', hcap₁, hcap]
    · rcases hslots with ⟨hlev, hpool⟩ | ⟨π, idx, l, r, hbook, hent⟩
      · refine .leave ?_ (Or.inr ?_)
        · show Shrinks e₀.levelsOf e'.levelsOf e₀.pool e'.pool
          rw [hlev, hpool]
          exact hsh.trans hsh₁
        · show e'.nextSequence = _
          rw [hseq', hseq₁, hseq]
      · refine .enter e₁ π _ idx l r (hsh.trans hsh₁) hent hbook horder ?_
        show e'.nextSequence = _
        rw [hseq', hseq₁, hseq]

/-! ### The order a call names -/

/-- What the exchange finds in a book is a resting order there. -/
theorem mem_slots_of_find {o : OrderInfo} (h : e.abs.find locate ref = some o) :
    ∃ d, ∃ i ∈ e.slots (locate, d), o = e.pool.info i ∧ o.orderId = ref := by
  unfold Exchange.find at h
  split at h
  · have hid : o.orderId = ref := by simpa using List.find?_some h
    rcases List.mem_append.mp (List.mem_of_find?_eq_some h) with ho | ho
    · obtain ⟨i, hi, rfl⟩ := List.mem_map.mp ho
      exact ⟨.bid, i, hi, rfl, hid⟩
    · obtain ⟨i, hi, rfl⟩ := List.mem_map.mp ho
      exact ⟨.ask, i, hi, rfl, hid⟩
  · exact absurd h (by simp)

/-- The exchange finds an order that rests in the book and is indexed. -/
theorem find_of_mem_slots (h : e.Inv) {d : BookSide} (hi : i ∈ e.slots (locate, d))
    (hx : e.abs.indexed (e.pool.info i).orderId = true) :
    e.abs.find locate (e.pool.info i).orderId = some (e.pool.info i) := by
  have hmem : e.pool.info i ∈ e.abs.queues (locate, .bid) ++ e.abs.queues (locate, .ask) := by
    rw [List.mem_append]
    cases d with
    | bid => exact Or.inl (List.mem_map.mpr ⟨i, hi, rfl⟩)
    | ask => exact Or.inr (List.mem_map.mpr ⟨i, hi, rfl⟩)
  cases hf : e.abs.find locate (e.pool.info i).orderId with
  | none =>
      rw [Exchange.find, if_pos hx, List.find?_eq_none] at hf
      exact absurd (decide_eq_true rfl) (hf _ hmem)
  | some o =>
      obtain ⟨d', j, hj, rfl, hid⟩ := mem_slots_of_find hf
      rw [h.refs _ _ j i hj hi hid]

/-- The index finds no order of the user under the reference. -/
def Misses (e : MatchingEngine) (ref userId : UInt64) : Prop :=
  e.index.find ref = some none ∨
    ∃ i, e.index.find ref = some (some i) ∧ (e.pool.storage i).userId ≠ userId

theorem Same.misses (h : Same e e') {userId : UInt64} (hm : e.Misses ref userId) :
    e'.Misses ref userId := by
  unfold Misses
  rw [h.index, h.pool]
  exact hm

/-- References are unique, so an order that rests in a book is at home there. -/
theorem Inv.homed (h : e.Inv) {d : BookSide} (hi : i ∈ e.slots (locate, d)) (userId : UInt64) :
    e.abs.Homed locate (e.pool.storage i).orderId userId := by
  intro π o ho hid _ _
  obtain ⟨j, hj, rfl⟩ := List.mem_map.mp ho
  obtain rfl := h.refs _ _ j i hj hi hid
  rw [h.place_unique hj hi]

/-- The order `find` answers with is the one the exchange finds, unless it rests in
another book and the user owns it. -/
theorem owned_eq (h : e.Inv) {userId : UInt64} (hr : e.abs.Homed locate ref userId) :
    (¬ kMaxLocate ≤ locate ∧ ∃ i d, e.index.find ref = some (some i) ∧
        (e.pool.storage i).userId = userId ∧ i ∈ e.slots (locate, d) ∧
        e.abs.owned locate ref userId = some (e.pool.info i)) ∨
      (e.abs.owned locate ref userId = none ∧
        (kMaxLocate ≤ locate ∨ e.Misses ref userId)) := by
  by_cases hl : kMaxLocate ≤ locate
  · exact Or.inr ⟨by rw [Exchange.owned, if_pos hl], Or.inl hl⟩
  have hfind := OrderMap.find_eq_lookup h.wf ref
  unfold Exchange.owned
  rw [if_neg hl]
  cases hlook : e.index.lookup ref with
  | none =>
      have hx : e.abs.indexed ref = false := by
        show (e.index.lookup ref).isSome = false
        rw [hlook]
        rfl
      refine Or.inr ⟨?_, Or.inr (Or.inl (by rw [hfind, hlook]))⟩
      simp [Exchange.find, hx]
  | some i =>
      obtain ⟨hid, π, hi⟩ := h.sound ref i hlook
      have hx : e.abs.indexed ref = true := by
        show (e.index.lookup ref).isSome = true
        rw [hlook]
        rfl
      rw [hlook] at hfind
      by_cases hu : (e.pool.storage i).userId = userId
      · -- The user's order: it rests in the book that was named.
        have hπ : π.1 = locate := hr π _ (List.mem_map.mpr ⟨i, hi, rfl⟩) hid hu hx
        obtain ⟨l', d⟩ := π
        change l' = locate at hπ
        subst hπ
        refine Or.inl ⟨hl, i, d, hfind, hu, hi, ?_⟩
        subst hid
        rw [find_of_mem_slots h hi hx]
        exact Option.filter_some_pos (decide_eq_true hu)
      · refine Or.inr ⟨?_, Or.inr (Or.inr ⟨i, hfind, hu⟩)⟩
        cases hf : e.abs.find locate ref with
        | none => rfl
        | some o =>
            obtain ⟨d', j, hj, rfl, hj'⟩ := mem_slots_of_find hf
            have hij := h.refs _ _ j i hj hi (hj'.trans hid.symm)
            subst hij
            exact Option.filter_some_neg (decide_eq_false hu)

end MatchingEngine

end NebulaX
