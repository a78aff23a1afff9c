import NebulaX.Proofs.Calls

/-!
# `NebulaX.Proofs.Exec`: the four operations

`exec_spec` is the simulation of one call: if its reference is fresh and it is addressed to
the book its order rests in, the call comes back and does what the exchange does. The
calls that name an order share their start, which `Calls` inverts once: either the index misses
(`exec_missing`) or the call acts on the slot that was found (`exec_found`).

`resting` is the engine at the moment `addOrder` is called inside a call. Whether the index
keeps the new reference is decided there, and `drops` says when it does not.
-/

set_option autoImplicit false

namespace NebulaX

open NebulaX.Lib

namespace MatchingEngine

variable {e : MatchingEngine} {locate ref userId : UInt64} {tif : OrderTif}

/-! ### What happens inside a call -/

/-- The slot of the order a call names, if the call may act on it. -/
def namedSlot (e : MatchingEngine) (locate ref userId : UInt64) : Option UInt32 :=
  if kMaxLocate ≤ locate then none
  else
    match e.index.find ref with
    | some (some idx) => if (e.pool.storage idx).userId = userId then some idx else none
    | _ => none

theorem namedSlot_of_misses (h : kMaxLocate ≤ locate ∨ e.Misses ref userId) :
    e.namedSlot locate ref userId = none := by
  rcases h with hl | hnone | ⟨i, hi, hother⟩
  · simp only [namedSlot, if_pos hl]
  · simp only [namedSlot, hnone, ite_self]
  · simp only [namedSlot, hi, if_neg hother, ite_self]

/-- The engine and the order at the moment `addOrder` is called, for a call that gets that
far: an order that may rest and is not filled by the matching loop. -/
def resting (e : MatchingEngine) : Call → Option (MatchingEngine × Order)
  | .add locate orderRef side price quantity userId tif =>
      if tif = .day ∧ Exchange.refusal locate orderRef side price quantity userId tif = none then do
        let e ← (e.count fun c => { c with newOrders := c.newOrders + 1 }).bookFor locate
        let (e, order, _) ← e.submitAdd locate orderRef side price quantity userId tif
        if order.status = .filled then none else some (e, order)
      else none
  | .replace locate oldRef newRef side price quantity userId => do
      let e ← (e.count fun c => { c with cancels := c.cancels + 1 }).bookFor locate
      let e := e.log { type := 0x04, locate := locate.toUInt16, price := price
                       quantity := quantity, userId := userId, orderId := newRef
                       walSeq := e.nextSequence }
      let idx ← ← (e.book locate).findOrder oldRef
      if (e.pool.storage idx).userId ≠ userId then none
      else
        let (e, order, _) ← e.submitReplace locate idx newRef side price quantity
        if order.status = .filled then none else some (e, order)
  | _ => none

/-- The call asks the index to store a reference, and the index drops it. -/
def drops (e : MatchingEngine) (c : Call) : Bool :=
  match e.resting c with
  | some (e₁, order) => decide (order.side ≠ .invalid ∧ e₁.pool.allocate.1.isSome ∧
      e₁.index.DropsInsert order.orderId)
  | none => false

/-- What `drops` says about the engine in which the order is about to rest. -/
theorem not_drops_eq {e₁ : MatchingEngine} {c : Call} {order : Order}
    (h : e.resting c = some (e₁, order)) (hinv : e₁.Inv) (hside : order.side ≠ .invalid)
    (hfree : e₁.pool.freeCount ≠ 0) :
    (!e.drops c) = !decide (e₁.index.DropsInsert order.orderId) := by
  have halloc : e₁.pool.allocate.1.isSome = true := by
    obtain ⟨free, hrep⟩ := hinv.slots
    rw [hrep.freeCount_eq] at hfree
    have hne : e₁.pool.freeHead.idx ≠ uint32Max := by
      rw [Ne, hrep.head_eq_nil_iff]
      exact fun e => hfree (by simp [e])
    rw [OrderPool.allocate_eq hne]
    rfl
  simp [drops, h, hside, halloc]

/-! ### `processAdd` -/

/-- An order that may not rest, from the matching loop on. -/
theorem submitNow_spec {e₀ : MatchingEngine} (locate : UInt64) (order : Order) (h : e.Inv)
    (hcap : e.pool.capacity = e₀.pool.capacity)
    (hsh : Shrinks e₀.levelsOf e.levelsOf e₀.pool e.pool)
    (hseq : e.nextSequence = e₀.nextSequence + 1) :
    ∃ e₁, e.matchSide locate order = some (e₁, takerOf e.abs locate order,
        (e.abs.fills locate order.toOrderInfo).frames locate order.side.bookSide.opposite) ∧
      ∀ needed code e', Same e₁ e' →
        StepsTo locate e₀ (e.abs.submitNow locate order.toOrderInfo needed code)
          (e', (e.abs.submitNow locate order.toOrderInfo needed code).2) := by
  obtain ⟨e₁, hm, hinv, habs, hsh₁, hcap₁, hseq₁⟩ := matchSide_spec h locate order
  refine ⟨e₁, hm, fun needed code e' hsame => ⟨hsame.inv hinv, ?_, ?_, ?_⟩⟩
  · have hfst : (e.abs.submitNow locate order.toOrderInfo needed code).1
        = e.abs.matched locate order.toOrderInfo := by
      simp only [Exchange.submitNow]
      split
      · rfl
      · split <;> rfl
    rw [hsame.abs, habs, ← hfst]
  · show e'.pool.capacity = _
    rw [hsame.pool, hcap₁, hcap]
  · refine .leave ?_ (Or.inr ?_)
    · show Shrinks e₀.levelsOf e'.levelsOf e₀.pool e'.pool
      rw [hsame.levelsOf, hsame.pool]
      exact hsh.trans hsh₁
    · show e'.nextSequence = _
      rw [hsame.nextSequence, hseq₁, hseq]

/-- `finishAdd` of an order that may not rest. -/
theorem finishAdd_now (e : MatchingEngine) (x : Exchange) (locate : UInt64) (order : Order)
    (quantity needed : UInt32) {code : ErrorCode}
    (ht : (tif = .ioc ∧ needed = 1 ∧ code = .mktNoLiquidity) ∨
      (tif = .fok ∧ needed = quantity ∧ code = .fokNoFullFill)) :
    ∃ e', Same e e' ∧ e.finishAdd locate (takerOf x locate order) quantity tif
        ((x.fills locate order.toOrderInfo).frames locate order.side.bookSide.opposite)
      = some (e', (x.submitNow locate order.toOrderInfo needed code).2) := by
  have hone : ∀ n : UInt32, n < 1 ↔ n = 0 := by
    intro n
    rw [UInt32.lt_iff_toNat_lt, ← UInt32.toNat_inj]
    simp
  unfold finishAdd
  simp only [Exchange.submitNow]
  by_cases hf : (takerOf x locate order).status = .filled
  · rw [if_pos hf]
    change ((x.fills locate order.toOrderInfo).taker order.toOrderInfo).status = _ at hf
    rw [if_pos hf]
    exact ⟨_, Same.count _ _, rfl⟩
  · rw [if_neg hf]
    change ((x.fills locate order.toOrderInfo).taker order.toOrderInfo).status ≠ _ at hf
    rw [if_neg hf]
    change ∃ e', _ ∧ (if tif = .ioc then
      if ((x.fills locate order.toOrderInfo).taker order.toOrderInfo).filledQty = 0 then _ else _
      else if tif = .fok then
        if ((x.fills locate order.toOrderInfo).taker order.toOrderInfo).filledQty < quantity
          then _ else _ else _) = _
    rcases ht with ⟨rfl, rfl, rfl⟩ | ⟨rfl, rfl, rfl⟩
    · rw [if_pos rfl]
      simp only [hone]
      split
      · exact ⟨_, Same.count _ _, rfl⟩
      · exact ⟨e, Same.refl e, rfl⟩
    · rw [if_neg (by decide), if_pos rfl]
      split
      · exact ⟨_, Same.count _ _, rfl⟩
      · exact ⟨e, Same.refl e, rfl⟩

/-- The test of a fill-or-kill order. -/
theorem canFullFill_eq (h : e.Inv) (locate : UInt64) (side : Side) (price quantity : UInt32) :
    canFullFill (e.book locate) side price quantity
      = some (decide (quantity ≤ Queue.available side.bookSide.opposite price
          (e.abs.queues (locate, side.bookSide.opposite)))) := by
  have hav := h.toBooksRep.availableQty_eq locate side price e.index
  simp only [canFullFill, book, hav]
  rfl

/-- Past its checks, `processAdd` is the match of the new order followed by `finishAdd`. -/
theorem Inv.processAdd_passes (h : e.Inv) {side : Side} {price quantity : UInt32}
    (hpass : e.Passes locate ref side price quantity userId tif) :
    ∃ order e₂ e₃, order = e.newOrder ref side (limitPrice tif side price) quantity userId ∧
      Same e.bumpSequence e₂ ∧
      e₂.matchSide locate order = some (e₃, takerOf e.abs locate order,
        (e.abs.fills locate order.toOrderInfo).frames locate order.side.bookSide.opposite) ∧
      e₃.Inv ∧ e₃.abs = e.abs.matched locate order.toOrderInfo ∧
      e₃.nextSequence = e.nextSequence + 1 ∧
      e.processAdd locate ref side price quantity userId tif
        = e₃.finishAdd locate (takerOf e.abs locate order) quantity tif
          ((e.abs.fills locate order.toOrderInfo).frames locate order.side.bookSide.opposite) := by
  rcases processAdd_eq e locate ref side price quantity userId tif with
    ⟨code, -, href, -⟩ | ⟨-, e₁, -, ho, -, heq⟩
  · cases href.symm.trans hpass.1
  · obtain ⟨e₂, hsub, hs₂⟩ := submitAdd_prepared e₁ locate ref side price quantity userId tif
    have hbump : Same e.bumpSequence e₁.bumpSequence :=
      ⟨ho.levelsOf, ho.pool, ho.index, congrArg (· + 1) ho.nextSequence⟩
    have hs := hbump.trans hs₂
    have hnew : e₁.newOrder ref side (limitPrice tif side price) quantity userId
        = e.newOrder ref side (limitPrice tif side price) quantity userId := by
      simp only [newOrder, ho.nextSequence]
    obtain ⟨e₃, hm, hinv₃, habs₃, -, -, hseq⟩ := matchSide_spec (hs.inv h) locate
      (e.newOrder ref side (limitPrice tif side price) quantity userId)
    have habs : e₂.abs = e.abs := hs.abs
    rw [habs] at hm habs₃
    refine ⟨_, e₂, e₃, rfl, hs, hm, hinv₃, habs₃, hseq.trans hs.nextSequence, ?_⟩
    have hproc : e.processAdd locate ref side price quantity userId tif
        = e₁.addChecked locate ref side price quantity userId tif := by
      rw [heq]
      split
      · rename_i htif
        rw [ho.toSame.book, hpass.2 htif]
        rfl
      · rfl
    rw [hproc, addChecked, hsub, hnew, hm]
    rfl

/-- `processAdd` of a fresh reference. -/
theorem processAdd_spec (h : e.Inv) {orderRef : UInt64} {side : Side} {price quantity : UInt32}
    (hnew : e.abs.Absent orderRef) :
    ∃ r, e.processAdd locate orderRef side price quantity userId tif = some r ∧
      StepsTo locate e (e.abs.add (!e.drops (.add locate orderRef side price quantity userId tif))
        locate orderRef side price quantity userId tif) r := by
  rcases processAdd_eq e locate orderRef side price quantity userId tif with
    ⟨code, e', href, heq, ⟨hs, -, -⟩⟩ | ⟨href, e', hopen, ⟨hs, -, -⟩, hside, heq⟩
  · refine ⟨_, heq, ?_⟩
    simp only [Exchange.add, href]
    exact StepsTo.of_same h hs
  · -- The order goes on in `e'`; it is matched in `e₂`, with its number drawn.
    obtain ⟨e₂, hsub, hs₂⟩ :=
      submitAdd_prepared e' locate orderRef side price quantity userId tif
    obtain ⟨order, horder⟩ : ∃ order,
      order = e'.newOrder orderRef side (limitPrice tif side price) quantity userId := ⟨_, rfl⟩
    have hinfo : order.toOrderInfo
        = Exchange.incoming orderRef side (limitPrice tif side price) quantity userId := by
      rw [horder]
      rfl
    have hinv' := hs.inv h
    have hinv₂ : e₂.Inv := hs₂.inv hinv'
    have habs₂ : e₂.abs = e.abs := hs₂.abs.trans hs.abs
    have hsh₂ : Shrinks e'.levelsOf e₂.levelsOf e'.pool e₂.pool := by
      rw [hs₂.levelsOf, hs₂.pool]
      exact Shrinks.refl _ _
    have hcap₂ : e₂.pool.capacity = e'.pool.capacity := by
      rw [hs₂.pool]
      rfl
    have hseq₂ : e₂.nextSequence = e'.nextSequence + 1 := hs₂.nextSequence
    rw [← horder] at hsub
    -- A match that leaves nothing to rest.
    have hnow : ∀ needed code, ((tif = .ioc ∧ needed = 1 ∧ code = .mktNoLiquidity) ∨
        (tif = .fok ∧ needed = quantity ∧ code = .fokNoFullFill)) →
        ∃ r, e'.addChecked locate orderRef side price quantity userId tif = some r ∧
          StepsTo locate e (e₂.abs.submitNow locate order.toOrderInfo needed code) r := by
      intro needed code ht
      obtain ⟨e₁, hm, hstep⟩ := submitNow_spec locate order hinv₂ hcap₂
        hsh₂ hseq₂
      obtain ⟨e'', hs'', hfin⟩ := finishAdd_now e₁ e₂.abs locate order quantity needed ht
      refine ⟨_, ?_, StepsTo.from_same hs (hstep needed code e'' hs'')⟩
      simp [addChecked, hsub, hm, hfin]
    simp only [Exchange.add, href]
    rw [← habs₂] at hnew ⊢
    rw [← hinfo]
    cases tif with
    | day =>
        obtain ⟨e₁, hm, hinv₁, hfilled, hrest⟩ := submitDay_spec locate order
          hinv₂ (by rw [hinfo]; exact hnew) hcap₂ hsh₂ hseq₂
          (by rw [horder]; rfl)
        rw [heq, if_neg (by decide)]
        by_cases hf : (takerOf e₂.abs locate order).status = .filled
        · refine ⟨_, ?_, StepsTo.from_same hs (hfilled hf _ e₁.countPool (Same.count _ _))⟩
          simp [addChecked, hsub, hm, finishAdd, hf]
          rfl
        · have hres : e.resting (.add locate orderRef side price quantity userId .day)
              = some (e₁, takerOf e₂.abs locate order) := by
            simp [resting, href, hopen, hsub, hm, hf]
          have hkeep := not_drops_eq hres hinv₁
          obtain ⟨r, hr, hstep⟩ := hrest hf _ hkeep
          refine ⟨r, ?_, StepsTo.from_same hs hstep⟩
          have hopen' : (takerOf e₂.abs locate order).status = .opened ∨
              (takerOf e₂.abs locate order).status = .partiallyFilled :=
            taker_status _ (by rw [hinfo]; rfl) hf
          simp only [addChecked, hsub, hm]
          show finishAdd e₁ locate (takerOf e₂.abs locate order) quantity .day _ = some r
          rw [finishAdd, if_neg hf, if_neg (by decide), if_neg (by decide), if_pos hopen', hr]
    | ioc =>
        rw [heq, if_neg (by decide)]
        exact hnow 1 .mktNoLiquidity (Or.inl ⟨rfl, rfl, rfl⟩)
    | fok =>
        have hcan := canFullFill_eq hinv' locate side (limitPrice .fok side price) quantity
        rw [hs.abs, ← habs₂] at hcan
        rw [heq, if_pos rfl, hcan]
        by_cases hfull : quantity ≤ Queue.available side.bookSide.opposite
            (limitPrice .fok side price) (e₂.abs.queues (locate, side.bookSide.opposite))
        · rw [if_pos hfull]
          simpa [hfull] using hnow quantity .fokNoFullFill (Or.inr ⟨rfl, rfl, rfl⟩)
        · rw [if_neg hfull]
          refine ⟨e'.reject .fokNoFullFill, by simp [hfull], ?_⟩
          rw [habs₂]
          exact StepsTo.of_same h (hs.trans (Same.count _ _))

/-! ### Calls that name an order -/

/-- An order leaves its book. -/
theorem Inv.removeOrder (h : e.Inv) {d : BookSide} {i : UInt32}
    (hi : i ∈ e.slots (locate, d)) :
    ∃ b, (e.book locate).removeOrder i = some b ∧ (e.putBook locate b).Inv ∧
      (e.putBook locate b).abs = e.abs.remove locate (e.pool.info i) ∧
      Shrinks e.levelsOf (e.putBook locate b).levelsOf e.pool b.pool ∧
      b.pool.capacity = e.pool.capacity := by
  obtain ⟨b, hrem, hrep, habs, hsh, hcap⟩ := Rep.removeOrder h hi
  rw [← levelsOf_putBook] at hrep habs hsh
  exact ⟨b, hrem, hrep, habs, hsh, hcap⟩

/-- `processCancel`. -/
theorem processCancel_spec (h : e.Inv) (hr : e.abs.Homed locate ref userId) :
    ∃ r, e.processCancel locate ref userId = some r ∧
      StepsTo locate e (e.abs.cancel locate ref userId) r := by
  rcases owned_eq h hr with ⟨hl, i, d, hfind, huser, hi, howned⟩ | ⟨howned, hmiss⟩
  · obtain ⟨e₂, hs, heq⟩ := exec_found (c := .cancel locate ref userId) rfl hl hfind huser
    obtain ⟨b, hrem, hinv', habs', hsh, hcap⟩ := (hs.inv h).removeOrder (hs.mem_slots hi)
    refine ⟨(e₂.putBook locate b, [.cancelled ref]), ?_, StepsTo.from_same hs
      ⟨hinv', ?_, hcap, .leave hsh (Or.inl rfl)⟩⟩
    · refine heq.trans ?_
      simp [actOn, hrem]
    · rw [Exchange.cancel, howned, habs', hs.abs, hs.pool]
  · obtain ⟨e', heq, hs⟩ := exec_missing (c := .cancel locate ref userId) rfl hmiss
    rw [Exchange.cancel, howned]
    exact ⟨_, heq, StepsTo.of_same h hs⟩

/-- `processCancelShares`. -/
theorem processCancelShares_spec (h : e.Inv) (hr : e.abs.Homed locate ref userId)
    (shares : UInt32) :
    ∃ r, e.processCancelShares locate ref shares userId = some r ∧
      StepsTo locate e (e.abs.cancelShares locate ref shares userId) r := by
  rcases owned_eq h hr with ⟨hl, i, d, hfind, huser, hi, howned⟩ | ⟨howned, hmiss⟩
  · obtain ⟨e₂, hs, heq⟩ :=
      exec_found (c := .cancelShares locate ref shares userId) rfl hl hfind huser
    have hi₂ := hs.mem_slots hi
    rw [Exchange.cancelShares, howned, ← hs.abs, ← hs.pool]
    by_cases hle : (e₂.pool.storage i).remainingQty ≤ shares
    · obtain ⟨b, hrem, hinv', habs', hsh, hcap⟩ := (hs.inv h).removeOrder hi₂
      refine ⟨(e₂.putBook locate b, [.cancelled ref]), ?_, StepsTo.from_same hs
        ⟨hinv', ?_, hcap, .leave hsh (Or.inl rfl)⟩⟩
      · refine heq.trans ?_
        simp [actOn, hle, hrem]
      · simp only [habs']
        rw [if_pos (show (e₂.pool.info i).remainingQty ≤ shares from hle)]
    · obtain ⟨b, hred, hrep, habs', hsh⟩ := Rep.reduceQtyCancel (hs.inv h) hi₂ shares
      rw [← levelsOf_putBook] at hrep habs' hsh
      refine ⟨(e₂.putBook locate b, [.ok ref]), ?_, StepsTo.from_same hs
        ⟨hrep, ?_, ?_, .leave hsh (Or.inl rfl)⟩⟩
      · refine heq.trans ?_
        simp only [actOn, if_neg hle]
        rw [show (e₂.book locate).reduceQtyCancel i shares = b from hred]
      · simp only
        rw [if_neg (show ¬ (e₂.pool.info i).remainingQty ≤ shares from hle)]
        exact congrArg (·, _) habs'
      · show b.pool.capacity = _
        rw [← hred]
        rfl
  · obtain ⟨e', heq, hs⟩ := exec_missing (c := .cancelShares locate ref shares userId) rfl hmiss
    rw [Exchange.cancelShares, howned]
    exact ⟨_, heq, StepsTo.of_same h hs⟩

/-- The start of a call that names an order, in the exchange and in the engine: there is no
such order, or the index finds it in the book that was named. -/
theorem named_cases (h : e.Inv) (hr : e.abs.Homed locate ref userId) :
    (e.abs.owned locate ref userId = none ∧ (kMaxLocate ≤ locate ∨ e.Misses ref userId)) ∨
      ∃ e₁, (e.count fun c => { c with cancels := c.cancels + 1 }).bookFor locate = some e₁ ∧
        ∀ entry e₂, e₁.log entry = e₂ → Same e e₂ ∧
          ∃ i d, e₂.index.find ref = some (some i) ∧ (e₂.pool.storage i).userId = userId ∧
            i ∈ e₂.slots (locate, d) ∧
            e₂.abs.owned locate ref userId = some (e₂.pool.info i) := by
  rcases opened_named e locate with ⟨hl, -⟩ | ⟨hl, e₁, hsome, ho⟩
  · exact Or.inl ⟨by rw [Exchange.owned, if_pos hl], Or.inl hl⟩
  · rcases owned_eq h hr with hfound | hmiss
    · refine Or.inr ⟨e₁, hsome, ?_⟩
      rintro entry e₂ rfl
      have hs' := ho.toSame.trans (Same.log e₁ entry)
      refine ⟨hs', ?_⟩
      unfold slots
      rw [hs'.abs, hs'.index, hs'.pool, hs'.levelsOf]
      exact hfound.2
    · exact Or.inl hmiss

/-- A reference is free for a replacement: it was free before, or it is the old one. -/
theorem Inv.absent_remove (h : e.Inv) {d : BookSide} {i : UInt32} {newRef : UInt64}
    (hi : i ∈ e.slots (locate, d))
    (hnew : newRef = (e.pool.info i).orderId ∨ e.abs.Absent newRef) :
    (e.abs.remove locate (e.pool.info i)).Absent newRef := by
  rcases hnew with rfl | hnew
  · intro π o ho hid
    have hside : (e.pool.info i).side.bookSide = d := h.bookSide_eq hi
    simp only [Exchange.remove, hside] at ho
    by_cases hπ : π = (locate, d)
    · subst hπ
      rw [Function.update_self, Queue.without, List.mem_filter] at ho
      exact absurd hid (by simpa using ho.2)
    · rw [Function.update_of_ne hπ] at ho
      obtain ⟨j, hj, rfl⟩ := List.mem_map.mp ho
      have hij := h.refs _ _ j i hj hi hid
      subst hij
      exact hπ (h.place_unique hj hi)
  · exact hnew.remove locate _

/-- `processReplace`. -/
theorem processReplace_spec (h : e.Inv) (hr : e.abs.Homed locate ref userId)
    {newRef : UInt64} (hnew : newRef = ref ∨ e.abs.Absent newRef) (side : Side)
    (price quantity : UInt32) :
    ∃ r, e.processReplace locate ref newRef side price quantity userId = some r ∧
      StepsTo locate e (e.abs.replace
        (!e.drops (.replace locate ref newRef side price quantity userId))
        locate ref newRef side price quantity userId) r := by
  rcases named_cases h hr with ⟨howned, hmiss⟩ | ⟨e₁, hsome, hlog⟩
  · obtain ⟨e', heq, hs⟩ := exec_missing
      (c := .replace locate ref newRef side price quantity userId) rfl hmiss
    rw [Exchange.replace, howned]
    exact ⟨_, heq, StepsTo.of_same h hs⟩
  · obtain ⟨at_, hat⟩ : ∃ at_,
      e.resting (.replace locate ref newRef side price quantity userId) = at_ := ⟨_, rfl⟩
    have hresting := hat
    simp only [resting, hsome, Option.bind_eq_bind, Option.bind_some,
      OrderBook.findOrder] at hresting
    simp only [processReplace, Exchange.replace, hsome, OrderBook.findOrder]
    generalize he₂ : e₁.log _ = e₂ at hresting ⊢
    obtain ⟨hs, i, d, hfind, huser, hi, howned⟩ := hlog _ _ he₂
    have hinv := hs.inv h
    rw [← hs.abs] at hnew ⊢
    obtain ⟨b, hrem, hinv', habs', hsh, hcap⟩ := hinv.removeOrder hi
    have hid : (e₂.pool.info i).orderId = ref := by
      have := OrderMap.find_eq_lookup hinv.wf ref
      rw [hfind, Option.some.injEq] at this
      exact (hinv.sound ref i this.symm).1
    obtain ⟨order, horder⟩ : ∃ order, order = (e₂.putBook locate b).newOrder newRef side price
      quantity newRef := ⟨_, rfl⟩
    have hinfo : order.toOrderInfo = Exchange.incoming newRef side price quantity newRef := by
      rw [horder]
      rfl
    have habsent : (e₂.putBook locate b).abs.Absent newRef := by
      rw [habs']
      exact hinv.absent_remove hi (by rw [hid]; exact hnew)
    -- The old order is gone; the new one is matched with its number drawn.
    obtain ⟨e₃, hm, hinv₃, hfilled, hrest⟩ := submitDay_spec
      (e := (e₂.putBook locate b).bumpSequence) locate order hinv'
      (by rw [hinfo]; exact habsent) hcap hsh rfl (by rw [horder]; rfl)
    have habs₃ : (e₂.putBook locate b).bumpSequence.abs
        = e₂.abs.remove locate (e₂.pool.info i) := habs'
    simp only [howned]
    rw [← hinfo]
    simp only [habs₃] at hm hfilled hrest
    generalize e₂.abs.remove locate (e₂.pool.info i) = x at hm hfilled hrest ⊢
    have hsub : e₂.submitReplace locate i newRef side price quantity
        = some (e₃, takerOf x locate order,
          (x.fills locate order.toOrderInfo).frames locate order.side.bookSide.opposite) := by
      simp only [submitReplace, hrem, Option.bind_eq_bind, Option.bind_some]
      rw [← horder, hm]
    by_cases hf : (takerOf x locate order).status = .filled
    · refine ⟨_, ?_, StepsTo.from_same hs (hfilled hf _ e₃ (Same.refl e₃))⟩
      simp [book, hfind, huser, hsub, finishReplace, hf]
      rfl
    · have hres : at_ = some (e₃, takerOf x locate order) := by
        rw [← hresting]
        simp [book, hfind, huser, hsub, hf]
      rw [hres] at hat
      have hkeep := not_drops_eq hat hinv₃
      obtain ⟨r, hr', hstep⟩ := hrest hf _ hkeep
      refine ⟨r, ?_, StepsTo.from_same hs hstep⟩
      have hopen : (takerOf x locate order).status = .opened ∨
          (takerOf x locate order).status = .partiallyFilled :=
        taker_status _ (by rw [hinfo]; rfl) hf
      simp [book, hfind, huser, hsub, finishReplace, hopen]
      exact hr'

/-! ### Every call -/

/-- A call that keeps what callers promise comes back, keeps the invariant, and is a step
of the exchange. -/
theorem exec_spec (h : e.Inv) {c : Call} (hf : e.abs.Fresh c) (hr : e.abs.Routed c) :
    ∃ r, e.exec c = some r ∧ StepsTo c.locate e (e.abs.step (!e.drops c) c) r := by
  cases c with
  | add locate orderRef side price quantity userId tif => exact processAdd_spec h hf
  | cancel locate ref userId => exact processCancel_spec h hr
  | cancelShares locate ref shares userId => exact processCancelShares_spec h hr shares
  | replace locate oldRef newRef side price quantity userId =>
      exact processReplace_spec h hr hf side price quantity

end MatchingEngine

end NebulaX
