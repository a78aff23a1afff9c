import NebulaX.Proofs.Exec
import NebulaX.Proofs.Steps

/-!
# `NebulaX.Proofs.Runs`: runs from an empty engine

The new engine satisfies the invariant and stands for the empty exchange. `Admissible` is
what callers promise, and `Inv.of_trace` is the run lemma: the invariant holds in every
state an admissible run reaches.
-/

set_option autoImplicit false

namespace NebulaX

open NebulaX.Lib

/-- The exchange with no orders and `free` slots. -/
def Exchange.empty (free : Nat) : Exchange := ⟨fun _ => [], fun _ => false, free⟩

namespace MatchingEngine

variable {c : Nat} {metrics : Option IOCounters} {wal : Option WalWriter}
variable {tradePool : Option TradePool} {e₀ e : MatchingEngine}
variable {h : List (Call × List BinaryResponse)} {books : List UInt64}

/-! ### The new engine -/

/-- What the constructor makes. -/
theorem exists_of_ofCapacity (h : ofCapacity c metrics wal tradePool = some e₀) :
    ∃ index, OrderMap.ofCapacity c = some index ∧ e₀ =
      { books := fun _ => none, pool := .ofCapacity c, index := index, nextOrderId := 1
        nextSequence := 1, metrics := metrics, wal := wal, tradePool := tradePool
        buyTradeId := 0, sellTradeId := 0 } := by
  simp only [ofCapacity, Option.bind_eq_bind, Option.bind_eq_some_iff, pure,
    Option.some.injEq] at h
  obtain ⟨index, hindex, rfl⟩ := h
  exact ⟨index, hindex, rfl⟩

/-- No side of a new engine has a slot. -/
theorem slots_ofCapacity (h : ofCapacity c metrics wal tradePool = some e₀) (π : Place) :
    e₀.slots π = [] := by
  obtain ⟨index, -, rfl⟩ := exists_of_ofCapacity h
  obtain ⟨l, d⟩ := π
  cases d <;> rfl

/-- The new engine satisfies the invariant. -/
theorem Inv.start (h : ofCapacity c metrics wal tradePool = some e₀) : e₀.Inv := by
  have hslots := funext (slots_ofCapacity h)
  obtain ⟨index, hindex, rfl⟩ := exists_of_ofCapacity h
  obtain ⟨h2, hc⟩ := OrderMap.ofCapacity_bounds hindex
  obtain ⟨hwf, hlook⟩ := OrderMap.ofCapacity_spec hindex
  have hpool := PoolRep.ofCapacity (κ := Place) h2 hc
  rw [← hslots] at hpool
  refine ⟨⟨fun π => ?_, _, hpool⟩, hwf, fun k i hk => ?_, fun π π' i j hi => ?_⟩
  · obtain ⟨l, d⟩ := π
    cases d <;> exact fun e he => by simp [levelsOf, BookLevels.levels] at he
  · rw [hlook] at hk
    exact absurd hk (by simp)
  · have hi' : i ∈ slots _ π := hi
    rw [hslots] at hi'
    exact absurd hi' (by simp)

/-- The new engine stands for the empty exchange. -/
theorem abs_ofCapacity (h : ofCapacity c metrics wal tradePool = some e₀) :
    e₀.abs = Exchange.empty c := by
  have hslots := slots_ofCapacity h
  obtain ⟨index, hindex, rfl⟩ := exists_of_ofCapacity h
  obtain ⟨-, hlook⟩ := OrderMap.ofCapacity_spec hindex
  simp only [MatchingEngine.abs, absOf, Exchange.empty, Exchange.mk.injEq]
  refine ⟨funext fun π => ?_, funext fun k => ?_, rfl⟩
  · have hπ := hslots π
    unfold slots at hπ
    rw [hπ]
    rfl
  · rw [hlook]
    rfl

/-- The exchange an engine stands for. -/
theorem Inv.proper (h : e.Inv) : e.abs.Proper where
  refs π π' o o' ho ho' hid := by
    obtain ⟨i, hi, rfl⟩ := List.mem_map.mp ho
    obtain ⟨j, hj, rfl⟩ := List.mem_map.mp ho'
    obtain rfl := h.refs π π' i j hi hj hid
    exact ⟨h.place_unique hi hj, rfl⟩
  nodup π := by
    rw [show e.abs.queues π = (e.slots π).map e.pool.info from rfl, List.map_map]
    exact List.Nodup.map_on (fun i hi j hj hid => h.refs π π i j hi hj hid) (h.nodup π)
  sides π o ho := by
    obtain ⟨i, hi, rfl⟩ := List.mem_map.mp ho
    exact h.bookSide_eq hi
  sorted π := List.pairwise_map.mpr (h.levels π).sorted
  indexed ref hx := by
    obtain ⟨i, hi⟩ := Option.isSome_iff_exists.mp (show (e.index.lookup ref).isSome = true from hx)
    obtain ⟨hid, π, hπ⟩ := h.sound ref i hi
    exact ⟨π, _, List.mem_map.mpr ⟨i, hπ, rfl⟩, hid⟩

/-! ### Admissible runs -/

/-- What callers promise: a reference a call brings in is not the reference of a resting
order, and a call that names a resting order of its user is addressed to the book the
order rests in. -/
def Admissible (_ : List (Call × List BinaryResponse)) (e : MatchingEngine) (c : Call) : Prop :=
  e.abs.Fresh c ∧ e.abs.Routed c

/-- The invariant holds in every state an admissible run reaches. -/
theorem Inv.of_trace (hinv : e₀.Inv) (t : Trace exec Admissible e₀ h e) : e.Inv := by
  refine t.invariant (fun _ e => e.Inv) hinv fun h e c e' out _ hi hp hstep => ?_
  obtain ⟨r, hr, hs⟩ := exec_spec hi hp.1 hp.2
  rw [hstep, Option.some.injEq] at hr
  subst hr
  exact hs.inv

/-- A call of an admissible run comes back as a step of the exchange. -/
theorem Inv.exec (hinv : e.Inv) {c : Call} (hp : Admissible h e c) :
    ∃ keep e' out, e.exec c = some (e', out) ∧ e'.Inv ∧ (e'.abs, out) = e.abs.step keep c := by
  obtain ⟨⟨e', out⟩, hr, hs⟩ := exec_spec hinv hp.1 hp.2
  exact ⟨_, e', out, hr, hs.inv, hs.abs⟩

/-- The step of an admissible run, from the invariant before it. -/
theorem stepsTo_of_exec (hinv : e.Inv) {c : Call} (hp : Admissible h e c)
    {e' : MatchingEngine} {out : List BinaryResponse} (hstep : e.exec c = some (e', out)) :
    StepsTo c.locate e (e.abs.step (!e.drops c) c) (e', out) := by
  obtain ⟨r, hr, hs⟩ := exec_spec hinv hp.1 hp.2
  rw [hstep, Option.some.injEq] at hr
  subst hr
  exact hs

/-- Every call is admissible in a new engine. -/
theorem admissible_start (h₀ : ofCapacity c metrics wal tradePool = some e₀) (call : Call) :
    Admissible h e₀ call := by
  have hempty : ∀ π, ∀ o ∈ e₀.abs.queues π, False := by
    intro π o ho
    rw [abs_ofCapacity h₀] at ho
    exact List.not_mem_nil ho
  cases call with
  | add => exact ⟨fun π o ho => (hempty π o ho).elim, trivial⟩
  | cancel | cancelShares => exact ⟨trivial, fun π o ho => (hempty π o ho).elim⟩
  | replace =>
      exact ⟨Or.inr fun π o ho => (hempty π o ho).elim, fun π o ho => (hempty π o ho).elim⟩

/-- The orders after a call: what is left of the old ones, and one with the new reference. -/
theorem mem_of_exec (hinv : e.Inv) {c : Call} (hp : Admissible h e c) {e' : MatchingEngine}
    {out : List BinaryResponse} (hstep : e.exec c = some (e', out)) {π : Place} {o : OrderInfo}
    (ho : o ∈ e'.abs.queues π) :
    (∃ o' ∈ e.abs.queues π, Exchange.LeftOf o o') ∨
      (π.1 = c.locate ∧ c.newRef? = some o.orderId ∧ c.taker? = some o.userId) := by
  have habs := congrArg Prod.fst (stepsTo_of_exec hinv hp hstep).abs
  rw [show e'.abs = _ from habs] at ho
  exact (Exchange.step_does _ _ c).mem hinv.proper ho

/-- What rests after a run of a new engine came in with one of its calls. -/
theorem mem_of_trace (h₀ : ofCapacity c metrics wal tradePool = some e₀)
    (t : Trace exec Admissible e₀ h e) {π : Place} {o : OrderInfo} (ho : o ∈ e.abs.queues π) :
    ∃ x ∈ h, π.1 = x.1.locate ∧ x.1.newRef? = some o.orderId ∧ x.1.taker? = some o.userId := by
  induction t generalizing o with
  | nil =>
      rw [abs_ofCapacity h₀] at ho
      exact absurd ho List.not_mem_nil
  | snoc t hp hstep ih =>
      rcases mem_of_exec (Inv.of_trace (Inv.start h₀) t) hp hstep ho with
        ⟨o', ho', hleft⟩ | hnew
      · obtain ⟨x, hx, hcame⟩ := ih ho'
        rw [← hleft.orderId, ← hleft.userId] at hcame
        exact ⟨x, List.mem_append_left _ hx, hcame⟩
      · exact ⟨_, List.mem_append_right _ (List.mem_singleton_self _), hnew⟩

/-- After a run of a new engine, an order under another reference is admissible. -/
theorem admissible_add (h₀ : ofCapacity c metrics wal tradePool = some e₀)
    (t : Trace exec Admissible e₀ h e) {h' : List (Call × List BinaryResponse)}
    {locate ref userId : UInt64} {side : Side} {price quantity : UInt32} {tif : OrderTif}
    (href : ∀ x ∈ h, x.1.newRef? ≠ some ref) :
    Admissible h' e (.add locate ref side price quantity userId tif) := by
  refine ⟨fun π o ho hid => ?_, trivial⟩
  obtain ⟨x, hx, -, hnew, -⟩ := mem_of_trace h₀ t ho
  exact href x hx (hid ▸ hnew)

/-- A run of orders under distinct references is admissible. -/
theorem trace_of_adds (h₀ : ofCapacity c metrics wal tradePool = some e₀) {calls : List Call}
    {outs : List (List BinaryResponse)} (hadd : ∀ x ∈ calls, x.named? = none)
    (hnd : (calls.map Call.newRef?).Nodup) (hrun : run exec e₀ calls = some (e, outs)) :
    Trace exec Admissible e₀ (calls.zip outs) e := by
  induction calls using List.reverseRecOn generalizing e outs with
  | nil =>
      rw [run, Option.some.injEq, Prod.mk.injEq] at hrun
      obtain ⟨rfl, rfl⟩ := hrun
      exact .nil
  | append_singleton calls x ih =>
      rw [run_append, Option.bind_eq_some_iff] at hrun
      obtain ⟨⟨e₁, outs₁⟩, hrun₁, hrun⟩ := hrun
      rw [Option.map_eq_some_iff] at hrun
      obtain ⟨⟨e₂, outs₂⟩, hrun₂, heq⟩ := hrun
      rw [run_cons, Option.bind_eq_some_iff] at hrun₂
      obtain ⟨⟨e₃, out⟩, hstep, hrun₂⟩ := hrun₂
      rw [runNext_mk, run_nil, Option.map_some, Option.some.injEq, Prod.mk.injEq] at hrun₂
      obtain ⟨rfl, rfl⟩ := hrun₂
      obtain ⟨rfl, rfl⟩ := Prod.mk.inj heq
      rw [List.map_append, List.nodup_append] at hnd
      obtain ⟨hnd, -, hnew⟩ := hnd
      have t := ih (fun y hy => hadd y (List.mem_append_left _ hy)) hnd hrun₁
      have hlen : calls.length = outs₁.length :=
        (Trace.of_run (Q := fun _ => True) (fun _ _ => trivial) hrun₁).1.symm
      rw [List.zip_append hlen]
      cases x with
      | add locate ref side price quantity userId tif =>
          refine t.snoc (admissible_add h₀ t fun y hy => ?_) hstep
          exact hnew _ (List.mem_map_of_mem (List.of_mem_zip hy).1) (some ref) List.mem_cons_self
      | _ => cases hadd _ (List.mem_append_right _ List.mem_cons_self)

/-! ### Checked runs -/

/-- The orders that rest in these books, with their places. -/
def restingIn (e : MatchingEngine) (books : List UInt64) : List (Place × OrderInfo) :=
  books.flatMap fun locate => [BookSide.bid, .ask].flatMap fun d =>
    (e.slots (locate, d)).map fun i => ((locate, d), e.pool.info i)

/-- The call is addressed to one of these books, and nothing that rests in them stands against
it. -/
def AdmissibleIn (books : List UInt64) (e : MatchingEngine) (c : Call) : Prop :=
  c.locate ∈ books ∧ ∀ x ∈ e.restingIn books, c.newRef? ≠ some x.2.orderId ∧
    (c.named? = some (x.2.orderId, x.2.userId) → x.1.1 = c.locate)

instance (books : List UInt64) (e : MatchingEngine) (c : Call) :
    Decidable (AdmissibleIn books e c) :=
  inferInstanceAs (Decidable (_ ∧ ∀ x ∈ e.restingIn books, _ ∧ (_ → _)))

theorem mem_restingIn {π : Place} (hπ : π.1 ∈ books) {o : OrderInfo}
    (ho : o ∈ e.abs.queues π) : (π, o) ∈ e.restingIn books := by
  obtain ⟨i, hi, rfl⟩ := List.mem_map.mp ho
  obtain ⟨locate, d⟩ := π
  refine List.mem_flatMap.mpr ⟨locate, hπ, List.mem_flatMap.mpr ⟨d, ?_, ?_⟩⟩
  · cases d <;> simp
  · exact List.mem_map.mpr ⟨i, hi, rfl⟩

/-- Where nothing rests in other books, the check is enough. -/
theorem AdmissibleIn.admissible {c : Call} (hc : AdmissibleIn books e c)
    (honly : ∀ π, ∀ o ∈ e.abs.queues π, π.1 ∈ books) : Admissible h e c := by
  have hall : ∀ π, ∀ o ∈ e.abs.queues π, c.newRef? ≠ some o.orderId ∧
      (c.named? = some (o.orderId, o.userId) → π.1 = c.locate) :=
    fun π o ho => hc.2 _ (mem_restingIn (honly π o ho) ho)
  have hhomed : ∀ ref userId, c.named? = some (ref, userId) → e.abs.Homed c.locate ref userId := by
    rintro ref userId hn π o ho rfl rfl -
    exact (hall π o ho).2 hn
  cases c with
  | add locate ref side price quantity userId tif =>
      exact ⟨fun π o ho hid => (hall π o ho).1 (congrArg some hid.symm), trivial⟩
  | cancel locate ref userId | cancelShares locate ref shares userId =>
      exact ⟨trivial, hhomed _ _ rfl⟩
  | replace locate oldRef newRef side price quantity userId =>
      exact ⟨Or.inr fun π o ho hid => (hall π o ho).1 (congrArg some hid.symm), hhomed _ _ rfl⟩

/-- A run of checked calls is admissible and stays in the books. -/
theorem trace_of_admissibleIn {P : List (Call × List BinaryResponse) → MatchingEngine → Call → Prop}
    (hP : ∀ h e c, P h e c → AdmissibleIn books e c) (hinv : e₀.Inv)
    (honly : ∀ π, ∀ o ∈ e₀.abs.queues π, π.1 ∈ books) (t : Trace exec P e₀ h e) :
    Trace exec (fun h e c => Admissible h e c ∧ P h e c) e₀ h e ∧
      ∀ π, ∀ o ∈ e.abs.queues π, π.1 ∈ books := by
  induction t with
  | nil => exact ⟨.nil, honly⟩
  | snoc _ hp hstep ih =>
      obtain ⟨t, honly⟩ := ih
      have hc := hP _ _ _ hp
      have hinv' := Inv.of_trace hinv (t.mono fun _ _ _ _ hp => hp.1)
      refine ⟨t.snoc ⟨hc.admissible honly, hp⟩ hstep, fun π o ho => ?_⟩
      rcases mem_of_exec hinv' (h := []) (hc.admissible honly) hstep ho with
        ⟨o', ho', -⟩ | ⟨hloc, -⟩
      · exact honly π o' ho'
      · exact hloc ▸ hc.1

/-- A checked run of a new engine. -/
theorem trace_of_checked (h₀ : ofCapacity c metrics wal tradePool = some e₀) {calls : List Call}
    (hrun : checked (fun _ e c => AdmissibleIn books e c) exec [] e₀ calls = some (e, h)) :
    Trace exec Admissible e₀ h e ∧ ∀ π, ∀ o ∈ e.abs.queues π, π.1 ∈ books := by
  have hempty : ∀ π, ∀ o ∈ e₀.abs.queues π, π.1 ∈ books := by
    intro π o ho
    rw [abs_ofCapacity h₀] at ho
    exact absurd ho List.not_mem_nil
  obtain ⟨t, honly⟩ := trace_of_admissibleIn (fun _ _ _ hp => hp) (Inv.start h₀) hempty
    (Trace.of_checked .nil hrun)
  exact ⟨t.mono fun _ _ _ _ hp => hp.1, honly⟩

end MatchingEngine

end NebulaX
