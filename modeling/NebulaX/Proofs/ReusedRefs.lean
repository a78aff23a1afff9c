import NebulaX.Proofs.Itch
import NebulaX.Proofs.Representation
import NebulaX.Proofs.Rounds

/-!
# `NebulaX.Proofs.ReusedRefs`: no slot is freed twice

Nothing checks that a reference is new: neither the parser, nor the server, nor the engine.
`matching_engine.h` says that references are given from outside and are globally unique, and
the memory safety of the pool rests on it.

* `no_double_free`: in every run of messages on one locate in which no message brings in the
  reference of a resting order, the index finds no free slot, a slot handed to `removeOrder`
  is not free, and a slot handed out by `allocate` is not linked.
* `reused_ref_double_free`: two sells under one reference, a buy that takes the first and a
  delete of the second. The index answers with the slot of the order that is gone, and that
  slot goes to the free list a second time.

The calls of `removeOrder` happen inside the operations. `removals` lists them, each with
the pool at that moment, and `resting` is the engine at the moment `addOrder` is called.
`removals_of_exec` ties the list to the call: the resting orders it names are those that are
gone once the call is executed.
-/

set_option autoImplicit false

namespace NebulaX

open NebulaX.Lib

/-- The free list, as far as the pool has slots. -/
def OrderPool.freeList (p : OrderPool) : List UInt32 :=
  walk (fun i => (p.storage i).poolNextFree) uint32Max p.capacity p.freeHead.idx

/-- In a well-formed pool that is the whole free list. -/
theorem PoolRep.freeList_eq {κ : Type} {pool : OrderPool} {used : κ → List UInt32}
    {free : List UInt32} (h : PoolRep pool used free) : pool.freeList = free :=
  h.chain.walk_eq (by
    have := h.size
    omega)

/-- A used slot is not on the free list. -/
theorem BooksRep.not_mem_freeList {B : UInt64 → BookLevels} {pool : OrderPool}
    (h : BooksRep B pool) {π : Place} {i : UInt32} (hi : i ∈ placeSlots B pool.storage π) :
    i ∉ pool.freeList := by
  obtain ⟨free, hrep⟩ := h.slots
  rw [hrep.freeList_eq]
  exact hrep.notFree π i hi

/-- The call is a cancel of fewer shares than the `remaining` ones. -/
def Call.leavesShares (remaining : UInt32) : Call → Bool
  | .cancelShares _ _ shares _ => shares < remaining
  | _ => false

namespace MatchingEngine

/-! ### The slots that are freed -/

/-- The call of `removeOrder` in a round that uses up the resting order. -/
def roundRemovals (x : MatchState × UInt32) : List (OrderPool × UInt32) :=
  let b := x.1.book.reduceOrderQty x.2
    (min x.1.order.remainingQty (x.1.book.pool.storage x.2).remainingQty)
  if (b.pool.storage x.2).remainingQty = 0 then [(b.pool, x.2)] else []

/-- The call of `removeOrder` for the order a call names, unless it is a cancel that leaves
shares. -/
def namedRemovals (e : MatchingEngine) (c : Call) : List (OrderPool × UInt32) :=
  match c.named? with
  | none => []
  | some (ref, userId) =>
      match e.namedSlot c.locate ref userId with
      | some idx => if c.leavesShares (e.pool.storage idx).remainingQty then [] else [(e.pool, idx)]
      | none => []

/-- The calls of `removeOrder` a call leads to, each with the pool at that moment. -/
def removals (e : MatchingEngine) (c : Call) : List (OrderPool × UInt32) :=
  e.namedRemovals c ++ (e.rounds c).flatMap roundRemovals

/-- The write of a trade leaves the free list alone. -/
theorem freeList_reduceOrderQty (b : OrderBook) (idx quantity : UInt32) :
    (b.reduceOrderQty idx quantity).pool.freeList = b.pool.freeList := by
  rw [reduceOrderQty_eq]
  unfold OrderPool.freeList
  congr 1
  funext i
  by_cases hi : i = idx
  · subst hi
    refine Eq.trans (congrArg Order.poolNextFree (Function.update_self i _ b.pool.storage)) ?_
    rfl
  · exact congrArg Order.poolNextFree (Function.update_of_ne hi _ b.pool.storage)

/-- The rounds of the loop trade with slots that are linked at that moment. -/
theorem loopRounds_linked {d : BookSide} {locate seq : UInt64} {fuel : Nat}
    {B : UInt64 → BookLevels} {pool : OrderPool} {index : OrderMap} {st : MatchState}
    (h : Rep B pool index) (hb : st.book = ⟨B locate, pool, index⟩) :
    ∀ x ∈ loopRounds d locate seq fuel st, x.2 ∉ x.1.book.pool.freeList := by
  induction fuel generalizing B pool index st with
  | zero => simp [loopRounds]
  | succ fuel ih =>
      intro x hx
      have hbest : st.book.getBest d st.order.userId = some ((placeSlots B pool.storage
          (locate, d)).find? fun i => ¬ Skips st.order.userId (pool.info i)) := by
        rw [hb]
        exact h.toBooksRep.getBest_eq locate d st.order.userId index
      rw [loopRounds, hbest] at hx
      split at hx
      · cases hx
      · cases hfind : (placeSlots B pool.storage (locate, d)).find?
            fun i => ¬ Skips st.order.userId (pool.info i) with
        | none =>
            rw [hfind] at hx
            cases hx
        | some best =>
            rw [hfind] at hx
            have hmem := List.mem_of_find?_eq_some hfind
            obtain ⟨st₁, hfill, hrep, -⟩ := fill_spec seq h hb hmem
            simp only [hfill] at hx
            split at hx
            · cases hx
            · rcases List.mem_cons.mp hx with rfl | hx
              · rw [hb]
                exact h.not_mem_freeList hmem
              · refine ih hrep ?_ x hx
                rw [Function.update_self]

section
variable {e : MatchingEngine}

/-- The slot of the order a call names is linked. -/
theorem namedSlot_not_free (h : e.Inv) {locate ref userId : UInt64} {idx : UInt32}
    (hs : e.namedSlot locate ref userId = some idx) : idx ∉ e.pool.freeList := by
  unfold namedSlot at hs
  rw [OrderMap.find_eq_lookup h.wf] at hs
  split at hs
  · simp at hs
  · cases hl : e.index.lookup ref with
    | none => simp [hl] at hs
    | some i =>
        simp only [hl] at hs
        split at hs
        · rw [Option.some.injEq] at hs
          subst hs
          obtain ⟨-, π, hπ⟩ := h.sound ref i hl
          exact h.toBooksRep.not_mem_freeList hπ
        · simp at hs

/-- No call of an admissible run frees a slot that is free. -/
theorem removals_not_free (h : e.Inv) {c : Call} (hp : Admissible [] e c) :
    ∀ x ∈ e.removals c, x.2 ∉ x.1.freeList := by
  intro x hx
  rcases List.mem_append.mp hx with hx | hx
  · unfold namedRemovals at hx
    split at hx
    · cases hx
    · split at hx
      · rename_i idx hs
        split at hx
        · cases hx
        · rw [List.mem_singleton] at hx
          subst hx
          exact namedSlot_not_free h hs
      · cases hx
  · obtain ⟨y, hy, hx⟩ := List.mem_flatMap.mp hx
    have hlinked : y.2 ∉ y.1.book.pool.freeList := by
      obtain ⟨⟨e', out⟩, hexec, -⟩ := exec_spec h hp.1 hp.2
      unfold rounds at hy
      rcases exec_cases hexec with ⟨hnone, -⟩ | ⟨e₁, order, -, -, -, hb, -⟩
      · rw [hnone] at hy
        cases hy
      · rw [hb.meeting] at hy
        exact loopRounds_linked (hb.slots h hp.2).1 rfl y hy
    simp only [roundRemovals] at hx
    split at hx
    · rw [List.mem_singleton] at hx
      subst hx
      exact (freeList_reduceOrderQty _ _ _).symm ▸ hlinked
    · cases hx

/-! ### The orders that are gone -/

/-- The round of the loop that uses up its resting order takes it off. -/
theorem exists_roundRemovals (x : MatchState × UInt32) (ref : UInt64) :
    (∃ y ∈ roundRemovals x, (y.1.storage y.2).orderId = ref) ↔
      (roundTrade x).1.orderId = ref ∧ (roundTrade x).2 = (roundTrade x).1.remainingQty := by
  obtain ⟨st, idx⟩ := x
  have hself : ∀ q, (st.book.reduceOrderQty idx q).pool.storage idx =
      { st.book.pool.storage idx with
        remainingQty := (st.book.pool.storage idx).remainingQty - q
        filledQty := (st.book.pool.storage idx).filledQty + q } := by
    intro q
    rw [reduceOrderQty_eq]
    exact Function.update_self _ _ _
  change _ ↔ (st.book.pool.storage idx).orderId = ref ∧
    min st.order.remainingQty (st.book.pool.storage idx).remainingQty
      = (st.book.pool.storage idx).remainingQty
  simp only [roundRemovals, hself, sub_eq_zero]
  split
  · rename_i hall
    simp only [List.mem_singleton, exists_eq_left, hself]
    exact (and_iff_left hall.symm).symm
  · rename_i hsome
    exact iff_of_false (by simp) fun h => hsome h.2.symm

/-- The order a call names is taken off if it rests and no shares are left. -/
theorem exists_namedRemovals (h : e.Inv) {c : Call} (hr : e.abs.Routed c) (ref : UInt64) :
    (∃ x ∈ e.namedRemovals c, (x.1.storage x.2).orderId = ref) ↔
      ∃ userId o, c.named? = some (ref, userId) ∧ e.abs.owned c.locate ref userId = some o ∧
        c.leavesShares o.remainingQty = false := by
  unfold namedRemovals
  cases hn : c.named? with
  | none => simp
  | some named =>
      obtain ⟨named, userId⟩ := named
      have hhome : e.abs.Homed c.locate named userId := by
        cases c <;> cases hn <;> exact hr
      rcases owned_eq h hhome with ⟨hl, i, d, hfind, huser, -, howned⟩ | ⟨howned, hmiss⟩
      · obtain ⟨-, -, hid, -⟩ := Exchange.mem_of_owned howned
        simp only [namedSlot, if_neg hl, hfind, if_pos huser]
        constructor
        · rintro ⟨x, hx, rfl⟩
          split at hx
          · cases hx
          · rename_i hleaves
            rw [List.mem_singleton] at hx
            subst hx
            refine ⟨userId, _, ?_, ?_, Bool.eq_false_of_not_eq_true hleaves⟩
            · exact congrArg (fun r => some (r, userId)) hid.symm
            · exact (congrArg (e.abs.owned c.locate · userId) hid).trans howned
        · rintro ⟨userId', o, heq, ho, hleaves⟩
          cases heq
          cases howned.symm.trans ho
          change c.leavesShares (e.pool.storage i).remainingQty = false at hleaves
          exact ⟨(e.pool, i), by simp [hleaves], hid⟩
      · simp only [namedSlot_of_misses hmiss]
        refine iff_of_false (by simp) ?_
        rintro ⟨userId', o, heq, ho, -⟩
        cases heq
        cases howned.symm.trans ho

/-- The calls of `removeOrder` are the orders that leave: a resting order is gone after the call
exactly if one of them was for its slot. -/
theorem removals_of_exec (h : e.Inv) {c : Call} (hp : Admissible [] e c) {e' : MatchingEngine}
    {out : List BinaryResponse} (hexec : e.exec c = some (e', out)) {π : Place} {y : OrderInfo}
    (hy : y ∈ e.abs.queues π) (hnew : c.newRef? ≠ some y.orderId) :
    (∃ x ∈ e.removals c, (x.1.storage x.2).orderId = y.orderId) ↔ e'.abs.Absent y.orderId := by
  have hdoes : Exchange.Does (!e.drops c) e.abs c (e'.abs, out) :=
    (stepsTo_of_exec h hp hexec).abs ▸ Exchange.step_does _ _ c
  have hrounds : (∃ x ∈ (e.rounds c).flatMap roundRemovals,
      (x.1.storage x.2).orderId = y.orderId) ↔
      ∃ t ∈ e.abs.callTrades c, t.1.orderId = y.orderId ∧ t.2 = t.1.remainingQty := by
    rw [← rounds_eq h hp.2]
    simp only [List.mem_flatMap, List.mem_map, exists_exists_and_eq_and, ← exists_roundRemovals]
    exact ⟨fun ⟨x, ⟨r, hr, hx⟩, hid⟩ => ⟨r, hr, x, hx, hid⟩,
      fun ⟨r, hr, x, hx, hid⟩ => ⟨x, ⟨r, hr, hx⟩, hid⟩⟩
  simp only [removals, List.mem_append, or_and_right, exists_or]
  rw [exists_namedRemovals h hp.2, hrounds]
  have hx := h.proper
  -- An order that was named is taken off, and no other one.
  have hremoved : ∀ {locate ref userId o}, e.abs.owned locate ref userId = some o →
      ((e.abs.remove locate o).Absent y.orderId ↔ y.orderId = ref) := by
    intro locate ref userId o ho
    refine ⟨fun hno => ?_, fun hid => hid ▸ Exchange.absent_remove hx ho⟩
    exact (Exchange.eq_or_mem_remove hx ho hy).resolve_right fun hmem => hno π y hmem rfl
  generalize e'.abs = x' at hdoes ⊢
  cases hdoes with
  | refused _ _ hsub hown =>
      rw [Exchange.callTrades_of_not_submitted hsub]
      refine iff_of_false ?_ fun hno => hno π y hy rfl
      rintro (⟨userId, o, hn, ho, -⟩ | ⟨t, ht, -⟩)
      · cases (hown _ _ hn).symm.trans ho
      · cases ht
  | cancelled ho =>
      rw [hremoved ho]
      constructor
      · rintro (⟨_, _, hn, -⟩ | ⟨t, ht, -⟩)
        · cases hn
          rfl
        · cases ht
      · rintro rfl
        exact Or.inl ⟨_, _, rfl, ho, rfl⟩
  | usedUp ho hle =>
      rw [hremoved ho]
      constructor
      · rintro (⟨_, _, hn, -⟩ | ⟨t, ht, -⟩)
        · cases hn
          rfl
        · cases ht
      · rintro rfl
        exact Or.inl ⟨_, _, rfl, ho, decide_eq_false (UInt32.not_lt.mpr hle)⟩
  | reduced ho hlt =>
      obtain ⟨y', hy', hl⟩ := Exchange.exists_mem_reduce hx ho hlt hy
      refine iff_of_false ?_ fun hno => hno π y' hy' hl.orderId
      rintro (⟨_, _, hn, ho', hleaves⟩ | ⟨t, ht, -⟩)
      · cases hn
        cases ho.symm.trans ho'
        exact of_decide_eq_false hleaves hlt
      · cases ht
  | added _ hsub hr =>
      rw [Exchange.callTrades_add hsub, hr.absent_iff fun e => hnew (congrArg some e),
        hx.absent_matched_iff hy]
      refine or_iff_right ?_
      rintro ⟨_, _, hn, -⟩
      cases hn
  | replaced ho hr =>
      rw [Exchange.callTrades_replace ho, hr.absent_iff fun e => hnew (congrArg some e)]
      rcases Exchange.eq_or_mem_remove hx ho hy with rfl | hmem
      · exact iff_of_true (Or.inl ⟨_, _, rfl, ho, rfl⟩) ((Exchange.absent_remove hx ho).matched _ _)
      · rw [(hx.remove _ _).absent_matched_iff hmem]
        refine or_iff_right ?_
        rintro ⟨_, _, hn, -⟩
        cases hn
        exact Exchange.absent_remove hx ho π y hmem rfl

/-! ### The slot that is handed out -/

/-- A match keeps the invariant. -/
theorem Inv.matchSide (h : e.Inv) {locate : UInt64} {order left : Order} {e₁ : MatchingEngine}
    {out : List BinaryResponse} (hm : e.matchSide locate order = some (e₁, left, out)) :
    e₁.Inv := by
  obtain ⟨e₂, hm₂, hinv, -⟩ := matchSide_spec h locate order
  cases hm₂.symm.trans hm
  exact hinv

/-- The engine in which the order of a call is about to rest satisfies the invariant. -/
theorem Inv.resting (h : e.Inv) {c : Call} (hp : Admissible [] e c) {e₁ : MatchingEngine}
    {order : Order} (hr : e.resting c = some (e₁, order)) : e₁.Inv := by
  cases c with
  | add locate orderRef side price quantity userId tif =>
      simp only [MatchingEngine.resting] at hr
      split at hr
      · obtain ⟨e', hopen, hr⟩ := Option.bind_eq_some_iff.mp hr
        obtain ⟨⟨e₂, left, out⟩, hm, hr⟩ := Option.bind_eq_some_iff.mp hr
        have hs := (Opened.of_bookFor hopen).toSame
        split at hr
        · cases hr
        · cases hr
          exact Inv.matchSide ((Same.log _ _).inv (show e'.bumpSequence.Inv from hs.inv h)) hm
      · cases hr
  | cancel => cases hr
  | cancelShares => cases hr
  | replace locate oldRef newRef side price quantity userId =>
      simp only [MatchingEngine.resting, Option.bind_eq_bind, OrderBook.findOrder] at hr
      rcases opened_named e locate with ⟨-, hnone⟩ | ⟨hl, e', hopen, ho⟩
      · rw [hnone] at hr
        cases hr
      · rw [hopen, Option.bind_some] at hr
        generalize he₂ : e'.log _ = e₂ at hr
        have hs : Same e e₂ := he₂ ▸ ho.toSame.trans (Same.log e' _)
        have htape : e₂.tape = e.tape := he₂ ▸ ho.tape
        obtain ⟨found, hfind, hact⟩ := Option.bind_eq_some_iff.mp hr
        obtain ⟨idx, rfl, hrest⟩ := Option.bind_eq_some_iff.mp hact
        split at hrest
        · cases hrest
        · rename_i huser
          obtain ⟨⟨e₃, left, out⟩, hsub, hleft⟩ := Option.bind_eq_some_iff.mp hrest
          obtain ⟨b, hb, hm⟩ := Option.bind_eq_some_iff.mp hsub
          split at hleft
          · cases hleft
          · cases hleft
            rw [hs.book] at hb
            have hbrings : Brings e (.replace locate oldRef newRef side price quantity userId)
                (e₂.putBook locate b).bumpSequence _ :=
              .replace hs htape hl (hs.index ▸ hfind) (hs.pool ▸ not_not.mp huser) hb
            exact Inv.matchSide (hbrings.slots h hp.2).1 hm

/-- `allocate` hands out a slot no level holds. -/
theorem allocate_not_linked (h : e.Inv) {i : UInt32} (ha : e.pool.allocate.1 = some i)
    (k : Place × UInt32) : ¬ e.Holds k i := by
  intro hk
  obtain ⟨free, hrep⟩ := h.slots
  have hmem := (hk.mem_slots h).2
  unfold OrderPool.allocate at ha
  split at ha
  · simp at ha
  · rename_i hne
    simp only [Option.some.injEq] at ha
    have hfree : i ∈ free := by
      cases free with
      | nil => exact absurd hrep.chain hne
      | cons x xs =>
          rw [← ha, show e.pool.freeHead.idx = x from hrep.chain.1]
          simp
    exact hrep.notFree k.1 i hmem hfree

end

end MatchingEngine

/-! ### Messages on one locate -/

namespace TcpServer

/-- The call of a message is addressed to `locate` and brings in no reference of a resting
order. -/
def FreshOn (locate : UInt64) (_ : List (List UInt8 × List BinaryResponse)) (s : TcpServer)
    (msg : List UInt8) : Prop :=
  ∀ c, s.callOf msg = some c → c.locate = locate ∧ s.engine.abs.Fresh c

section
variable {locate : UInt64} {h : List (List UInt8 × List BinaryResponse)} {s₀ s : TcpServer}

/-- With one book in use, every call is addressed to the book its order rests in. -/
theorem FreshOn.admits (honly : ∀ π, ∀ o ∈ s.engine.abs.queues π, π.1 = locate)
    {msg : List UInt8} (hp : FreshOn locate h s msg) : s.Admits msg := by
  intro c hc
  obtain ⟨hl, hf⟩ := hp c hc
  exact ⟨hf, Exchange.routed_of_only fun π o ho => (honly π o ho).trans hl.symm⟩

/-- The invariant of a run on one locate: no other book is used. -/
theorem inv_of_freshOn (hinv : s₀.engine.Inv)
    (hempty : ∀ π, s₀.engine.abs.queues π = [])
    (t : Trace processItchMessage (FreshOn locate) s₀ h s) :
    s.engine.Inv ∧ ∀ π, ∀ o ∈ s.engine.abs.queues π, π.1 = locate := by
  refine t.invariant (fun _ s => s.engine.Inv ∧ ∀ π, ∀ o ∈ s.engine.abs.queues π, π.1 = locate)
    ⟨hinv, fun π o ho => by simp [hempty] at ho⟩ fun h s msg s' out _ ⟨hi, honly⟩ hp hstep => ?_
  obtain ⟨s'', out', heq, hi', hcase⟩ := step_of_admits hi (hp.admits honly)
  rw [hstep, Option.some.injEq, Prod.mk.injEq] at heq
  obtain ⟨rfl, rfl⟩ := heq
  refine ⟨hi', fun π o ho => ?_⟩
  rcases hcase with ⟨habs, -⟩ | ⟨c, keep, hc, habs⟩
  · exact honly π o (habs ▸ ho)
  · rw [show s'.engine.abs = _ from congrArg Prod.fst habs] at ho
    rcases (Exchange.step_does keep _ c).mem hi.proper ho with ⟨o', ho', -⟩ | ⟨hl, -⟩
    · exact honly π o' ho'
    · exact hl.trans (hp c hc).1

end

/-- No slot is freed twice. In every state a run of messages on one locate reaches, if no
message brought in the reference of a resting order, the index finds no free slot; and while
the next such message is processed, no slot goes to the free list that is already there, and
no slot is handed out that a level still holds. -/
theorem no_double_free {c : Nat} {metrics : Option IOCounters} {wal : Option WalWriter}
    {tradePool : Option TradePool} {e₀ : MatchingEngine} {p : ItchParser} {locate : UInt64}
    {h : List (List UInt8 × List BinaryResponse)} {s : TcpServer}
    (h₀ : MatchingEngine.ofCapacity c metrics wal tradePool = some e₀)
    (t : Trace processItchMessage (FreshOn locate) ⟨e₀, p⟩ h s) :
    (∀ ref i, s.engine.index.find ref = some (some i) → i ∉ s.engine.pool.freeList) ∧
      ∀ msg call, FreshOn locate h s msg → s.callOf msg = some call →
        (∀ x ∈ s.engine.removals call, x.2 ∉ x.1.freeList) ∧
        ∀ e₁ order i, s.engine.resting call = some (e₁, order) →
          e₁.pool.allocate.1 = some i → ∀ k, ¬ e₁.Holds k i := by
  obtain ⟨hinv, honly⟩ := inv_of_freshOn (MatchingEngine.Inv.start h₀)
    (fun π => by rw [MatchingEngine.abs_ofCapacity h₀]; rfl) t
  refine ⟨fun ref i hf => ?_, fun msg call hp hcall => ?_⟩
  · rw [OrderMap.find_eq_lookup hinv.wf, Option.some.injEq] at hf
    obtain ⟨-, π, hπ⟩ := hinv.sound ref i hf
    exact hinv.toBooksRep.not_mem_freeList hπ
  · have hadm := hp.admits honly call hcall
    exact ⟨MatchingEngine.removals_not_free hinv hadm, fun e₁ order i hr ha =>
      MatchingEngine.allocate_not_linked (hinv.resting hadm hr) ha⟩

/-! ### A reference in use -/

/-- Two sells under reference 1, a buy that takes the first, and a delete of reference 1:
before the delete the index answers with a free slot, the delete frees it again, and then
the free list is a cycle through it. -/
theorem reused_ref_double_free : ∃ e₀ s outs s' out,
    MatchingEngine.ofCapacity 4 none none none = some e₀ ∧
    run processItchMessage ⟨e₀, {}⟩ [addMessage 1 83 5 10000, addMessage 1 83 5 10000,
      addMessage 2 66 5 10000] = some (s, outs) ∧
    s.engine.index.find 1 = some (some 0) ∧ s.engine.pool.freeList = [0, 2, 3] ∧
    s.callOf (deleteMessage 1) = some (.cancel 0 1 1) ∧
    (s.engine.removals (.cancel 0 1 1)).map (fun x => (x.2, x.1.freeList)) = [(0, [0, 2, 3])] ∧
    s.processItchMessage (deleteMessage 1) = some (s', out) ∧
    s'.engine.pool.freeList = [0, 0, 0, 0] := by
  have hbefore : ((MatchingEngine.ofCapacity 4 none none none).bind fun e₀ =>
      (run processItchMessage ⟨e₀, {}⟩ [addMessage 1 83 5 10000, addMessage 1 83 5 10000,
        addMessage 2 66 5 10000]).map fun r =>
        (r.1.engine.index.find 1, r.1.engine.pool.freeList,
          (r.1.engine.removals (.cancel 0 1 1)).map fun x => (x.2, x.1.freeList)))
      = some (some (some 0), [0, 2, 3], [(0, [0, 2, 3])]) := by
    decide +kernel
  have hafter : ((MatchingEngine.ofCapacity 4 none none none).bind fun e₀ =>
      (run processItchMessage ⟨e₀, {}⟩ [addMessage 1 83 5 10000, addMessage 1 83 5 10000,
        addMessage 2 66 5 10000]).bind fun r =>
      (r.1.processItchMessage (deleteMessage 1)).map fun r' =>
        (r.1.callOf (deleteMessage 1), r'.1.engine.pool.freeList))
      = some (some (.cancel 0 1 1), [0, 0, 0, 0]) := by
    decide +kernel
  simp only [Option.bind_eq_some_iff, Option.map_eq_some_iff, Prod.mk.injEq] at hbefore
  obtain ⟨e₀, h₀, ⟨s, outs⟩, hs, hfind, hfree, hrem⟩ := hbefore
  simp only [h₀, Option.bind_some, hs, Option.map_eq_some_iff, Prod.mk.injEq] at hafter
  obtain ⟨⟨s', out⟩, hs', hcall, hfree'⟩ := hafter
  exact ⟨e₀, s, outs, s', out, h₀, hs, hfind, hfree, hcall, hrem, hs', hfree'⟩

/-- A sell and a buy under two references: the buy frees the slot of the sell, which is not
free at that moment. -/
theorem no_double_free_distinct : ∃ e₀ s out,
    MatchingEngine.ofCapacity 4 none none none = some e₀ ∧
    processItchMessage ⟨e₀, {}⟩ (addMessage 1 83 5 10000) = some (s, out) ∧
    s.callOf (addMessage 2 66 5 10000) = some (.add 0 2 .buy 100 5 2 .day) ∧
    (s.engine.removals (.add 0 2 .buy 100 5 2 .day)).map Prod.snd = [0] ∧
    ∀ x ∈ s.engine.removals (.add 0 2 .buy 100 5 2 .day), x.2 ∉ x.1.freeList := by
  have hsecond : ((MatchingEngine.ofCapacity 4 none none none).bind fun e₀ =>
      (processItchMessage ⟨e₀, {}⟩ (addMessage 1 83 5 10000)).map fun r =>
        (r.1.callOf (addMessage 2 66 5 10000),
          (r.1.engine.removals (.add 0 2 .buy 100 5 2 .day)).map Prod.snd))
      = some (some (.add 0 2 .buy 100 5 2 .day), [0]) := by
    decide +kernel
  simp only [Option.bind_eq_some_iff, Option.map_eq_some_iff, Prod.mk.injEq] at hsecond
  obtain ⟨e₀, h₀, ⟨s, out⟩, hs, hcall, hrem⟩ := hsecond
  have hinv := MatchingEngine.Inv.start h₀
  have habs := MatchingEngine.abs_ofCapacity h₀
  have hp : FreshOn 0 [] ⟨e₀, {}⟩ (addMessage 1 83 5 10000) := by
    intro c hc
    rw [show callOf ⟨e₀, {}⟩ (addMessage 1 83 5 10000)
      = some (.add 0 1 .sell 100 5 1 .day) from rfl, Option.some.injEq] at hc
    subst hc
    exact ⟨rfl, by rw [habs]; exact fun π o ho => by simp [Exchange.empty] at ho⟩
  have hp' : FreshOn 0 ([] ++ [(addMessage 1 83 5 10000, out)]) s (addMessage 2 66 5 10000) := by
    intro c hc
    rw [hcall, Option.some.injEq] at hc
    subst hc
    have hs' := hs
    rw [processItchMessage_of_feed (.add 0 1 .sell 5 100) rfl, Option.map_eq_some_iff] at hs'
    obtain ⟨r, hr, heq⟩ := hs'
    cases heq
    have t : Trace MatchingEngine.exec MatchingEngine.Admissible e₀
        [(.add 0 1 .sell 100 5 1 .day, r.2)] r.1 :=
      .snoc .nil (MatchingEngine.admissible_start h₀ _) hr
    have hadm : MatchingEngine.Admissible [] r.1 (.add 0 2 .buy 100 5 2 .day) :=
      MatchingEngine.admissible_add h₀ t (by simp [Call.newRef?])
    exact ⟨rfl, hadm.1⟩
  obtain ⟨-, hnext⟩ := no_double_free h₀ (Trace.nil.snoc hp hs)
  exact ⟨e₀, s, out, h₀, hs, hcall, hrem, (hnext _ _ hp' hcall).1⟩

end TcpServer

end NebulaX
