import NebulaX.Proofs.Runs

/-!
# `NebulaX.Proofs.Cancellable`: an acknowledged order can be cancelled

`addOrder` ignores the answer of `OrderMap::insert`. An insert that is dropped leaves an
order in the book that no cancel finds, although it was acknowledged.

* `acknowledged_cancellable`: in a run in which no insert is dropped, the index finds every
  resting order, and an acknowledged order that has not ended is cancelled by its owner.
* `acknowledged_not_found` is a run of ten calls in which the last order is acknowledged
  and then not found: one bucket of the table has been converted, so its nodes are not
  given back, and the exhaustion test misses the empty node pool.
-/

set_option autoImplicit false

namespace NebulaX

open NebulaX.Lib

namespace Exchange

/-! ### The end of an order -/

/-- The answer `out` to `c` reports the end of an order: it is cancelled, replaced, or
filled up by a trade for all it has left. -/
def Ends (c : Call) (out : List BinaryResponse) (o : OrderInfo) : Prop :=
  .cancelled o.orderId ∈ out ∨
    (∃ locate newRef side price quantity userId,
      c = .replace locate o.orderId newRef side price quantity userId ∧
        out ≠ [.error .orderNotFound]) ∨
    ∃ t, .trade t ∈ out ∧ t.orderRef = o.orderId ∧ t.quantity = o.remainingQty

/-- `Ends`, computed. -/
def ends (c : Call) (out : List BinaryResponse) (o : OrderInfo) : Bool :=
  out.contains (.cancelled o.orderId) ||
    (match c with
      | .replace _ oldRef .. => oldRef == o.orderId && out != [.error .orderNotFound]
      | _ => false) ||
    out.any fun
      | .trade t => t.orderRef == o.orderId && t.quantity == o.remainingQty
      | _ => false

theorem ends_iff {c : Call} {out : List BinaryResponse} {o : OrderInfo} :
    ends c out o = true ↔ Ends c out o := by
  have htrade : (out.any fun
      | .trade t => t.orderRef == o.orderId && t.quantity == o.remainingQty
      | _ => false) = true ↔
      ∃ t, .trade t ∈ out ∧ t.orderRef = o.orderId ∧ t.quantity = o.remainingQty := by
    rw [List.any_eq_true]
    constructor
    · rintro ⟨f, hf, hmatch⟩
      cases f with
      | trade t => exact ⟨t, hf, by simpa using hmatch⟩
      | _ => cases hmatch
    · rintro ⟨t, ht, hmatch⟩
      exact ⟨.trade t, ht, by simpa using hmatch⟩
  cases c <;> simp only [ends, Ends, Bool.or_eq_true, htrade] <;> simp [or_assoc]

instance (c : Call) (out : List BinaryResponse) (o : OrderInfo) : Decidable (Ends c out o) :=
  decidable_of_iff _ ends_iff

section
variable {keep : Bool} {x : Exchange} {c : Call} {r : Exchange × List BinaryResponse}

/-- A submission leaves an order in its queue or fills it up. -/
theorem Submitted.rests_or_filled {locate : UInt64} {o : OrderInfo}
    (h : Submitted keep x locate o r) (hx : x.Proper) {π : Place} {y : OrderInfo}
    (hy : y ∈ x.queues π) :
    (∃ y' ∈ r.1.queues π, LeftOf y' y) ∨
      ∃ t, .trade t ∈ r.2 ∧ t.orderRef = y.orderId ∧ t.quantity = y.remainingQty := by
  have hsub : ∀ z ∈ (x.matched locate o).queues π, z ∈ r.1.queues π := by
    intro z hz
    cases h with
    | filled _ => exact hz
    | dropped _ _ _ => exact hz
    | rested _ _ _ => exact mem_enter.mpr (Or.inr hz)
  cases hx.fate locate o hy with
  | kept _ hmem => exact Or.inl ⟨y, hsub y hmem, LeftOf.refl y⟩
  | partly n hn hlt _ hmem =>
      obtain ⟨hle, hne⟩ := sub_le_and_ne_zero hlt
      exact Or.inl ⟨_, hsub _ hmem, rfl, rfl, rfl, rfl, hle, fun _ => hne⟩
  | usedUp htrades _ =>
      obtain ⟨tail, hout, -⟩ := h.out
      have hmem : (y, y.remainingQty) ∈ (x.fills locate o).trades :=
        (List.mem_filter.mp (htrades ▸ List.mem_singleton_self _)).1
      refine Or.inr ⟨{ locate := locate, orderRef := y.orderId
                       side := o.side.bookSide.opposite.side, price := y.price
                       quantity := y.remainingQty }, ?_, rfl, rfl⟩
      rw [hout]
      exact List.mem_append_left _ (mem_tradeFrames.mpr ⟨_, hmem, rfl⟩)

/-- After a call an order still rests, or the answer says how it ended. -/
theorem Does.rests_or_ends (h : Does keep x c r) (hx : x.Proper) {π : Place} {y : OrderInfo}
    (hy : y ∈ x.queues π) : (∃ y' ∈ r.1.queues π, LeftOf y' y) ∨ Ends c r.2 y := by
  cases h with
  | refused _ _ _ => exact Or.inl ⟨y, hy, LeftOf.refl y⟩
  | cancelled ho | usedUp ho _ =>
      rcases eq_or_mem_remove hx ho hy with rfl | hy
      · exact Or.inr (Or.inl (List.mem_singleton_self _))
      · exact Or.inl ⟨y, hy, LeftOf.refl y⟩
  | reduced ho hlt => exact Or.inl (exists_mem_reduce hx ho hlt hy)
  | added _ _ hr =>
      rcases hr.rests_or_filled hx hy with hy | ht
      · exact Or.inl hy
      · exact Or.inr (Or.inr (Or.inr ht))
  | replaced ho hr =>
      rcases eq_or_mem_remove hx ho hy with rfl | hy
      · exact Or.inr (Or.inr (Or.inl ⟨_, _, _, _, _, _, rfl, hr.out_ne⟩))
      · rcases hr.rests_or_filled (hx.remove _ _) hy with hy | ht
        · exact Or.inl hy
        · exact Or.inr (Or.inr (Or.inr ht))

/-- The order an acknowledged call rests. -/
theorem Does.mem_of_ok {locate ref : UInt64} {side : Side} {price quantity : UInt32}
    {userId : UInt64} {tif : OrderTif}
    (h : Does keep x (.add locate ref side price quantity userId tif) r)
    (hok : .ok ref ∈ r.2) :
    ¬ MatchingEngine.kMaxLocate ≤ locate ∧
      ∃ o ∈ r.1.queues (locate, side.bookSide), o.orderId = ref ∧ o.userId = userId := by
  cases h with
  | refused _ _ _ => simp at hok
  | added hok' _ hr =>
      have hl : ¬ MatchingEngine.kMaxLocate ≤ locate := by
        intro hl
        rw [refusal, if_pos hl] at hok'
        exact absurd hok' (by simp)
      obtain ⟨tail, hout, -⟩ := hr.out
      have hno : .ok ref ∉ x.tradeFrames locate
          (incoming ref side (MatchingEngine.limitPrice tif side price) quantity userId) := by
        simp [tradeFrames, Fills.frames]
      refine ⟨hl, ?_⟩
      cases hr with
      | filled _ => simp [hno] at hok
      | dropped tail htail _ =>
          rcases htail with rfl | ⟨code, -, rfl⟩ <;> simp [hno] at hok
      | rested _ _ _ => exact ⟨_, mem_enter.mpr (Or.inl ⟨rfl, rfl⟩), rfl, rfl⟩

/-- The order a call may act on, in an exchange whose index is complete. -/
theorem owned_of_mem (hx : x.Proper) (hc : x.Complete) {locate : UInt64}
    (hl : ¬ MatchingEngine.kMaxLocate ≤ locate) {d : BookSide} {o : OrderInfo}
    (ho : o ∈ x.queues (locate, d)) : x.owned locate o.orderId o.userId = some o := by
  have hmem : o ∈ x.queues (locate, .bid) ++ x.queues (locate, .ask) := by
    cases d <;> simp [ho]
  rw [owned, if_neg hl, find, if_pos (hc _ o ho)]
  cases hf : (x.queues (locate, .bid) ++ x.queues (locate, .ask)).find?
      fun y => y.orderId = o.orderId with
  | none => exact absurd (List.find?_eq_none.mp hf o hmem) (by simp)
  | some y =>
      have hid : y.orderId = o.orderId := by simpa using List.find?_some hf
      have hy : ∃ d', y ∈ x.queues (locate, d') := by
        rcases List.mem_append.mp (List.mem_of_find?_eq_some hf) with hy | hy
        · exact ⟨_, hy⟩
        · exact ⟨_, hy⟩
      obtain ⟨d', hy⟩ := hy
      obtain rfl := (hx.refs _ _ y o hy ho hid).2
      exact Option.filter_some_pos (decide_eq_true rfl)

end

end Exchange

namespace MatchingEngine

/-! ### Runs without a dropped insert -/

/-- A call of a run on one book: it brings in no reference of a resting order, and the index
does not drop the reference of the order it rests. -/
def Stored (locate : UInt64) (_ : List (Call × List BinaryResponse)) (e : MatchingEngine)
    (c : Call) : Prop :=
  c.locate = locate ∧ e.abs.Fresh c ∧ e.drops c = false

/-- The index finds every resting order. -/
def FindsAll (e : MatchingEngine) : Prop :=
  ∀ π, ∀ i ∈ e.slots π, e.index.find (e.pool.storage i).orderId = some (some i)

/-- A complete index finds the slot of every resting order. -/
theorem Inv.findsAll {e : MatchingEngine} (h : e.Inv) (hc : e.abs.Complete) : e.FindsAll := by
  intro π i hi
  have hx := hc π _ (List.mem_map.mpr ⟨i, hi, rfl⟩)
  obtain ⟨j, hj⟩ := Option.isSome_iff_exists.mp
    (show (e.index.lookup (e.pool.info i).orderId).isSome = true from hx)
  obtain ⟨hid, π', hπ'⟩ := h.sound _ j hj
  obtain rfl := h.refs π' π j i hπ' hi hid
  rw [OrderMap.find_eq_lookup h.wf]
  exact congrArg some hj

/-- What a run on one book without a dropped insert keeps. -/
structure Kept (locate : UInt64) (e : MatchingEngine) : Prop where
  inv : e.Inv
  complete : e.abs.Complete
  only : ∀ π, ∀ o ∈ e.abs.queues π, π.1 = locate

section
variable {locate : UInt64} {h : List (Call × List BinaryResponse)} {e₀ e e' : MatchingEngine}
variable {c : Call} {out : List BinaryResponse}

theorem Kept.start {cap : Nat} {metrics : Option IOCounters} {wal : Option WalWriter}
    {tradePool : Option TradePool} (h₀ : ofCapacity cap metrics wal tradePool = some e₀) :
    Kept locate e₀ := by
  refine ⟨Inv.start h₀, fun π o ho => ?_, fun π o ho => ?_⟩ <;>
  · rw [abs_ofCapacity h₀] at ho
    exact absurd ho List.not_mem_nil

theorem Kept.admissible (hk : Kept locate e) (hp : Stored locate h e c) : Admissible h e c :=
  ⟨hp.2.1, Exchange.routed_of_only fun π o ho => (hk.only π o ho).trans hp.1.symm⟩

/-- The step of a call that drops nothing. -/
theorem Kept.does (hk : Kept locate e) (hp : Stored locate h e c)
    (hstep : e.exec c = some (e', out)) : Exchange.Does true e.abs c (e'.abs, out) := by
  have habs := (stepsTo_of_exec hk.inv (hk.admissible hp) hstep).abs
  rw [hp.2.2] at habs
  change (e'.abs, out) = e.abs.step true c at habs
  rw [habs]
  exact Exchange.step_does true e.abs c

theorem Kept.step (hk : Kept locate e) (hp : Stored locate h e c)
    (hstep : e.exec c = some (e', out)) : Kept locate e' := by
  have hdoes := hk.does hp hstep
  refine ⟨(stepsTo_of_exec hk.inv (hk.admissible hp) hstep).inv,
    hdoes.complete hk.complete hk.inv.proper, fun π o ho => ?_⟩
  rcases hdoes.mem hk.inv.proper ho with ⟨o', ho', -⟩ | ⟨hl, -⟩
  · exact hk.only π o' ho'
  · exact hl.trans hp.1

theorem Kept.of_trace (h₀ : Kept locate e₀) (t : Trace exec (Stored locate) e₀ h e) :
    Kept locate e := by
  refine t.invariant (fun _ e => Kept locate e) h₀ fun h e c e' out _ hk hp hstep => ?_
  exact hk.step hp hstep

end

/-! ### The result -/

/-- The call does not end the order under `ref`. -/
def Spares (ref : UInt64) (e : MatchingEngine) (c : Call) : Prop :=
  ∀ e' out, e.exec c = some (e', out) →
    ∀ π, ∀ i ∈ e.slots π, (e.pool.storage i).orderId = ref →
      ¬ Exchange.Ends c out (e.pool.info i)

section
variable {cap : Nat} {metrics : Option IOCounters} {wal : Option WalWriter}
variable {tradePool : Option TradePool} {e₀ e₁ e₂ e : MatchingEngine}
variable {h₁ h₂ : List (Call × List BinaryResponse)} {out : List BinaryResponse}
variable {locate ref userId : UInt64} {side : Side} {price quantity : UInt32}

/-- Take a run on one book in which no insert is dropped. In every state the index finds
every resting order. An order that was acknowledged, and that no later call of the run has
ended, is cancelled by its owner: the answer is `RSP_CANCELLED` and exactly that order is
gone. -/
theorem acknowledged_cancellable (h₀ : ofCapacity cap metrics wal tradePool = some e₀)
    (t₁ : Trace exec (Stored locate) e₀ h₁ e₁)
    (hp : Stored locate h₁ e₁ (.add locate ref side price quantity userId .day))
    (hadd : e₁.exec (.add locate ref side price quantity userId .day) = some (e₂, out))
    (hok : .ok ref ∈ out)
    (t₂ : Trace exec (fun h e c => Stored locate h e c ∧ Spares ref e c) e₂ h₂ e) :
    e.FindsAll ∧ ∃ e', e.exec (.cancel locate ref userId) = some (e', [.cancelled ref]) ∧
      (∃ o ∈ e.abs.queues (locate, side.bookSide), o.orderId = ref ∧ o.userId = userId) ∧
      ∀ π, e'.abs.queues π = (e.abs.queues π).filter fun o => o.orderId ≠ ref := by
  have hk₁ := Kept.of_trace (Kept.start h₀) t₁
  obtain ⟨hl, hrests⟩ := (hk₁.does hp hadd).mem_of_ok hok
  -- The order rests until a call ends it.
  obtain ⟨hk, o, ho, hid, hu⟩ : Kept locate e ∧
      ∃ o ∈ e.abs.queues (locate, side.bookSide), o.orderId = ref ∧ o.userId = userId := by
    refine t₂.invariant (fun _ e => Kept locate e ∧
      ∃ o ∈ e.abs.queues (locate, side.bookSide), o.orderId = ref ∧ o.userId = userId)
      ⟨hk₁.step hp hadd, hrests⟩ fun h e c e' out _ ⟨hk, o, ho, hid, hu⟩ ⟨hp, hspare⟩ hstep => ?_
    refine ⟨hk.step hp hstep, ?_⟩
    rcases (hk.does hp hstep).rests_or_ends hk.inv.proper ho with ⟨o', ho', hleft⟩ | hend
    · exact ⟨o', ho', hleft.orderId.trans hid, hleft.userId.trans hu⟩
    · obtain ⟨i, hi, rfl⟩ := List.mem_map.mp ho
      exact absurd hend (hspare e' out hstep _ i hi hid)
  have hproper := hk.inv.proper
  have howned : e.abs.owned locate ref userId = some o := by
    rw [← hid, ← hu]
    exact Exchange.owned_of_mem hproper hk.complete hl ho
  obtain ⟨⟨e', out'⟩, hexec, hs⟩ := processCancel_spec hk.inv
    (fun π o ho _ _ _ => hk.only π o ho : e.abs.Homed locate ref userId)
  have habs : (e'.abs, out') = (e.abs.remove locate o, [.cancelled ref]) := by
    rw [show (e'.abs, out') = _ from hs.abs, Exchange.cancel, howned]
  obtain ⟨hqueues, rfl⟩ := Prod.mk.inj habs
  refine ⟨hk.inv.findsAll hk.complete, e', hexec, ⟨o, ho, hid, hu⟩, fun π => ?_⟩
  rw [hqueues, ← hid]
  exact hproper.remove_queues (hproper.mem_of_owned howned) π

end

/-- Eight bids fill the pool and one bucket of the table, the first is cancelled, and a
ninth takes its slot. It is acknowledged and rests, and its owner cannot cancel it: the
bucket of the eight was converted, which keeps its nodes, so the index has no node for the
ninth and drops it. -/
theorem acknowledged_not_found : ∃ e₀ e₁ outs e₂ e₃, ofCapacity 8 none none none = some e₀ ∧
    run exec e₀ ([5, 13, 18, 26, 34, 39, 47, 60].map (fun ref => .add 0 ref .buy 100 1 ref .day)
      ++ [.cancel 0 5 5]) = some (e₁, outs) ∧
    e₁.exec (.add 0 2 .buy 100 1 2 .day) = some (e₂, [.ok 2]) ∧
    e₂.exec (.cancel 0 2 2) = some (e₃, [.error .orderNotFound]) ∧
    (e₂.slots (0, .bid)).map (fun i => (e₂.pool.storage i).orderId)
      = [13, 18, 26, 34, 39, 47, 60, 2] ∧ e₂.index.find 2 = some none := by
  have hrun : ((ofCapacity 8 none none none).bind fun e₀ =>
      (run exec e₀ ([5, 13, 18, 26, 34, 39, 47, 60].map (fun ref =>
        .add 0 ref .buy 100 1 ref .day) ++ [.cancel 0 5 5])).bind fun r₁ =>
      (r₁.1.exec (.add 0 2 .buy 100 1 2 .day)).bind fun r₂ =>
      (r₂.1.exec (.cancel 0 2 2)).map fun r₃ => (r₂.2, r₃.2,
        (r₂.1.slots (0, .bid)).map (fun i => (r₂.1.pool.storage i).orderId), r₂.1.index.find 2))
      = some ([.ok 2], [.error .orderNotFound], [13, 18, 26, 34, 39, 47, 60, 2], some none) := by
    decide +kernel
  simp only [Option.bind_eq_some_iff, Option.map_eq_some_iff, Prod.mk.injEq] at hrun
  obtain ⟨e₀, h₀, ⟨e₁, outs⟩, hstep₁, ⟨e₂, out₂⟩, hstep₂, ⟨e₃, out₃⟩, hstep₃, rfl, rfl, hslots,
    hfind⟩ := hrun
  exact ⟨e₀, e₁, outs, e₂, e₃, h₀, hstep₁, hstep₂, hstep₃, hslots, hfind⟩

/-- `Stored` in book 0 and `Spares`, as far as book 0 shows. -/
def Harmless (ref : UInt64) (e : MatchingEngine) (c : Call) : Prop :=
  (AdmissibleIn [0] e c ∧ e.drops c = false) ∧ ∀ r ∈ e.exec c, ∀ x ∈ e.restingIn [0],
    x.2.orderId = ref → ¬ Exchange.Ends c r.2 x.2

instance (ref : UInt64) (e : MatchingEngine) (c : Call) : Decidable (Harmless ref e c) :=
  inferInstanceAs (Decidable ((_ ∧ _) ∧ ∀ r ∈ e.exec c, ∀ x ∈ e.restingIn [0], _ → _))

theorem Harmless.stored {ref : UInt64} {h : List (Call × List BinaryResponse)} {e : MatchingEngine}
    {c : Call} (hc : Harmless ref e c) (hp : Admissible h e c) : Stored 0 h e c :=
  ⟨List.mem_singleton.mp hc.1.1.1, hp.1, hc.1.2⟩

theorem Harmless.spares {ref : UInt64} {e : MatchingEngine} {c : Call} (hc : Harmless ref e c)
    (honly : ∀ π, ∀ o ∈ e.abs.queues π, π.1 ∈ [0]) : Spares ref e c := by
  intro e' out hexec π i hi hid
  have ho : e.pool.info i ∈ e.abs.queues π := List.mem_map.mpr ⟨i, hi, rfl⟩
  exact hc.2 _ hexec _ (mem_restingIn (honly π _ ho) ho) hid

/-- A bid is acknowledged behind an ask. A sell takes part of it, a part of it is cancelled, the ask
goes, and another bid comes; then its owner cancels it. -/
theorem acknowledged_cancellable_later : ∃ e₀ e₁ e₂ e e' h₁ h₂,
    ofCapacity 4 none none none = some e₀ ∧ Trace exec (Stored 0) e₀ h₁ e₁ ∧
    e₁.exec (.add 0 1 .buy 100 9 1 .day) = some (e₂, [.ok 1]) ∧
    Trace exec (fun h e c => Stored 0 h e c ∧ Spares 1 e c) e₂ h₂ e ∧
    h₂.map Prod.snd = [[.trade ⟨0, 1, .buy, 100, 3⟩, .filled 3], [.ok 1], [.cancelled 2],
      [.ok 4]] ∧ e.FindsAll ∧ e.exec (.cancel 0 1 1) = some (e', [.cancelled 1]) := by
  let later : List Call := [.add 0 3 .sell 100 3 3 .day, .cancelShares 0 1 2 1, .cancel 0 2 2,
    .add 0 4 .buy 100 5 4 .day]
  have hrun : ((ofCapacity 4 none none none).bind fun e₀ =>
      (checked (fun _ e c => Harmless 1 e c) exec [] e₀ [.add 0 2 .sell 101 5 2 .day]).bind
        fun r₁ =>
      (r₁.1.exec (.add 0 1 .buy 100 9 1 .day)).bind fun r₂ =>
      (checked (fun _ e c => Harmless 1 e c) exec [] r₂.1 later).map fun r =>
        (decide (Harmless 1 r₁.1 (.add 0 1 .buy 100 9 1 .day)), r₂.2, r.2.map Prod.snd))
      = some (true, [.ok 1], [[.trade ⟨0, 1, .buy, 100, 3⟩, .filled 3], [.ok 1], [.cancelled 2],
        [.ok 4]]) := by
    decide +kernel
  simp only [Option.bind_eq_some_iff, Option.map_eq_some_iff, Prod.mk.injEq] at hrun
  obtain ⟨e₀, h₀, ⟨e₁, h₁⟩, hrun₁, ⟨e₂, out⟩, hadd, ⟨e, h₂⟩, hrun₂, hharmless, rfl, houts⟩ := hrun
  have hP : ∀ (h : List (Call × List BinaryResponse)) (e : MatchingEngine) (c : Call),
      Harmless 1 e c → AdmissibleIn [0] e c := fun _ _ _ hc => hc.1.1
  obtain ⟨t₁, honly₁⟩ := trace_of_admissibleIn hP (Inv.start h₀)
    (fun π o ho => absurd (abs_ofCapacity h₀ ▸ ho) List.not_mem_nil) (Trace.of_checked .nil hrun₁)
  have hp := (of_decide_eq_true hharmless).stored (h := h₁) ((hP [] _ _
    (of_decide_eq_true hharmless)).admissible honly₁)
  have t₁ := t₁.mono fun _ _ _ _ hp => hp.2.stored hp.1
  have hk₂ := (Kept.of_trace (Kept.start h₀) t₁).step hp hadd
  have honly₂ : ∀ π, ∀ o ∈ e₂.abs.queues π, π.1 ∈ [0] := fun π o ho =>
    List.mem_singleton.mpr (hk₂.only π o ho)
  have t₂ : Trace exec (fun h e c => Stored 0 h e c ∧ Spares 1 e c) e₂ h₂ e :=
    (trace_of_admissibleIn hP hk₂.inv honly₂ (Trace.of_checked .nil hrun₂)).1.mono
      fun h e c t hp => ⟨hp.2.stored hp.1, hp.2.spares
        (trace_of_admissibleIn (fun _ _ _ hp => hp.2.1.1) hk₂.inv honly₂ t).2⟩
  obtain ⟨hall, e', hcancel, -⟩ := acknowledged_cancellable h₀ t₁ hp hadd
    (List.mem_singleton_self _) t₂
  exact ⟨e₀, e₁, e₂, e, e', h₁, h₂, h₀, t₁, hadd, t₂, houts, hall, hcancel⟩

end MatchingEngine

end NebulaX
