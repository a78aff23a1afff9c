import NebulaX.Proofs.Rounds

/-!
# `NebulaX.Proofs.Conservation`: where the quantity of an order goes

`Account` is what a run did with the quantity of one reference, in natural numbers: given
with the call, traded by the incoming order, traded while it rested, removed by cancels and
replaces, and discarded. `record` keeps the accounts along a run. It reads the calls, the
answers and, for what a removal takes off and a discard drops, the engine.

* `quantity_conserved`: in every state of a run that does not use a reference twice, the
  parts of every account add up to what was given. A resting order has filled exactly what
  it traded.
* `subtractions` lists the subtractions on `remaining_qty` of a call; none of them wraps.
  `subtractions_of_exec` ties the list to the call: what is taken off is what its answer
  reports.
-/

set_option autoImplicit false

namespace NebulaX

open NebulaX.Lib

/-! ### Accounts -/

/-- What became of the quantity of a reference. -/
structure Account where
  /-- The quantity of the call that brought the reference in. -/
  given : Nat := 0
  /-- Traded by the incoming order. -/
  taken : Nat := 0
  /-- Traded while it rested. -/
  made : Nat := 0
  /-- Taken off by cancels and by being replaced. -/
  removed : Nat := 0
  /-- Dropped with an order that did not rest. -/
  discarded : Nat := 0
  deriving DecidableEq, Repr

/-- The quantity of a trade frame that names `ref`. -/
def BinaryResponse.tradedWith (ref : UInt64) : BinaryResponse → Nat
  | .trade t => if t.orderRef = ref then t.quantity.toNat else 0
  | _ => 0

/-- The quantity of a trade frame. -/
def BinaryResponse.traded : BinaryResponse → Nat
  | .trade t => t.quantity.toNat
  | _ => 0

/-- The quantity an answer trades with the resting order `ref`. -/
def tradedWith (ref : UInt64) (out : List BinaryResponse) : Nat :=
  (out.map (BinaryResponse.tradedWith ref)).sum

/-- The quantity an answer trades. -/
def tradedTotal (out : List BinaryResponse) : Nat := (out.map BinaryResponse.traded).sum

namespace Call

/-- The quantity of a new order. -/
def quantity : Call → UInt32
  | .add _ _ _ _ quantity _ _ => quantity
  | .replace _ _ _ _ _ quantity _ => quantity
  | _ => 0

/-- The shares the call, answered by `out`, takes off the order `ref`, of which `left` are
left before the call. -/
def removes (c : Call) (out : List BinaryResponse) (ref : UInt64) (left : Nat) : Nat :=
  match c with
  | .add .. => 0
  | .cancel _ named _ => if named = ref ∧ .cancelled ref ∈ out then left else 0
  | .cancelShares _ named shares _ =>
      if named = ref then
        if .cancelled ref ∈ out then left else if .ok ref ∈ out then shares.toNat else 0
      else 0
  | .replace _ named .. => if named = ref ∧ out ≠ [.error .orderNotFound] then left else 0

end Call

namespace MatchingEngine

/-- The incoming order of a call as the matching loop left it, for a call that gets that
far. -/
def submitted (e : MatchingEngine) : Call → Option Order
  | .add locate orderRef side price quantity userId tif =>
      if Exchange.refusal locate orderRef side price quantity userId tif = none then do
        let e ← (e.count fun c => { c with newOrders := c.newOrders + 1 }).bookFor locate
        if tif = .fok ∧ canFullFill (e.book locate) side (limitPrice tif side price) quantity
            ≠ some true then none
        else
          let (_, order, _) ← e.submitAdd locate orderRef side price quantity userId tif
          some order
      else none
  | .replace locate oldRef newRef side price quantity userId => do
      let e ← (e.count fun c => { c with cancels := c.cancels + 1 }).bookFor locate
      let e := e.log { type := 0x04, locate := locate.toUInt16, price := price
                       quantity := quantity, userId := userId, orderId := newRef
                       walSeq := e.nextSequence }
      let idx ← ← (e.book locate).findOrder oldRef
      if (e.pool.storage idx).userId ≠ userId then none
      else
        let (_, order, _) ← e.submitReplace locate idx newRef side price quantity
        some order
  | _ => none

/-- What is left of the order the index finds. -/
def remainingOf (e : MatchingEngine) (ref : UInt64) : Nat :=
  match e.index.find ref with
  | some (some idx) => (e.pool.storage idx).remainingQty.toNat
  | _ => 0

/-- The accounts after call `c` of engine `e` was answered by `out`. -/
def record (e : MatchingEngine) (c : Call) (out : List BinaryResponse)
    (accounts : UInt64 → Account) (ref : UInt64) : Account :=
  let a := accounts ref
  let a := { a with
    made := a.made + tradedWith ref out
    removed := a.removed + c.removes out ref (e.remainingOf ref) }
  match e.submitted c with
  | some order =>
      if order.orderId = ref then
        { a with
          given := a.given + c.quantity.toNat
          taken := a.taken + tradedTotal out
          discarded := a.discarded + if .ok ref ∈ out then 0 else order.remainingQty.toNat }
      else a
  | none => a

/-- A call, with the accounts kept. -/
def execRecorded (s : MatchingEngine × (UInt64 → Account)) (c : Call) :
    Option ((MatchingEngine × (UInt64 → Account)) × List BinaryResponse) :=
  (s.1.exec c).map fun r => ((r.1, s.1.record c r.2 s.2), r.2)

end MatchingEngine

namespace Exchange

/-! ### Quantities of trades -/

/-- The quantity a match trades with an order of the queue, frame by frame. -/
theorem tradedWith_frames (r : Fills) (locate : UInt64) (d : BookSide) (ref : UInt64) :
    tradedWith ref (r.frames locate d)
      = ((r.trades.filter fun t => t.1.orderId = ref).map fun t => t.2.toNat).sum := by
  unfold tradedWith Fills.frames
  rw [List.map_map]
  induction r.trades with
  | nil => rfl
  | cons t trades ih =>
      rw [List.map_cons, List.sum_cons, ih]
      by_cases hid : t.1.orderId = ref
      · rw [List.filter_cons_of_pos (by simpa using hid)]
        simp [BinaryResponse.tradedWith, hid]
      · rw [List.filter_cons_of_neg (by simpa using hid)]
        simp [BinaryResponse.tradedWith, hid]

theorem tradedTotal_frames (r : Fills) (locate : UInt64) (d : BookSide) :
    tradedTotal (r.frames locate d) = (r.trades.map fun t => t.2.toNat).sum := by
  unfold tradedTotal Fills.frames
  rw [List.map_map]
  rfl

/-- Frames that are no trades do not count. -/
theorem traded_append_of_not_trade (out : List BinaryResponse) {tail : List BinaryResponse}
    (h : ∀ t, .trade t ∉ tail) :
    (∀ ref, tradedWith ref (out ++ tail) = tradedWith ref out) ∧
      tradedTotal (out ++ tail) = tradedTotal out := by
  have hzero : ∀ f : BinaryResponse → Nat, (∀ r ∈ tail, f r = 0) → (tail.map f).sum = 0 := by
    intro f hf
    refine List.sum_eq_zero fun n hn => ?_
    obtain ⟨r, hr, rfl⟩ := List.mem_map.mp hn
    exact hf r hr
  have hno : ∀ r ∈ tail, r.traded = 0 ∧ ∀ ref, r.tradedWith ref = 0 := by
    intro r hr
    cases r with
    | trade t => exact absurd hr (h t)
    | _ => exact ⟨rfl, fun _ => rfl⟩
  refine ⟨fun ref => ?_, ?_⟩
  · rw [tradedWith, List.map_append, List.sum_append,
      hzero _ fun r hr => (hno r hr).2 ref, Nat.add_zero]
    rfl
  · rw [tradedTotal, List.map_append, List.sum_append, hzero _ fun r hr => (hno r hr).1,
      Nat.add_zero]
    rfl

section
variable {keep : Bool} {x : Exchange} {c : Call} {r : Exchange × List BinaryResponse}
variable {locate ref userId : UInt64} {o y : OrderInfo} {π : Place}

/-- What a submission trades is what its match trades. -/
theorem Submitted.traded (h : Submitted keep x locate o r) :
    (∀ ref, tradedWith ref r.2 = (((x.fills locate o).trades.filter fun t =>
        t.1.orderId = ref).map fun t => t.2.toNat).sum) ∧
      tradedTotal r.2 = ((x.fills locate o).trades.map fun t => t.2.toNat).sum := by
  obtain ⟨tail, hout, -, htail⟩ := h.out
  obtain ⟨hwith, hall⟩ := traded_append_of_not_trade (x.tradeFrames locate o) htail
  rw [hout]
  exact ⟨fun ref => (hwith ref).trans (tradedWith_frames _ _ _ _),
    hall.trans (tradedTotal_frames _ _ _)⟩

/-! ### An order that rested before the call -/

/-- What a call does to a resting order: `made` is traded with it and `removed` is taken off.
It stays with the rest, or that was all it had. -/
inductive Leaves (x' : Exchange) (π : Place) (o : OrderInfo) (made removed : Nat) : Prop
  | stays (o' : OrderInfo) (hmem : o' ∈ x'.queues π) (hid : o'.orderId = o.orderId)
      (horiginal : o'.originalQty = o.originalQty)
      (hfilled : o'.filledQty.toNat = o.filledQty.toNat + made)
      (hremaining : o'.remainingQty.toNat + made + removed = o.remainingQty.toNat)
  | gone (hgone : x'.Absent o.orderId) (hremaining : made + removed = o.remainingQty.toNat)

/-- A submission and a resting order. -/
theorem Submitted.leaves (h : Submitted keep x locate o r) (hx : x.Proper) (hy : y ∈ x.queues π)
    (hne : o.orderId ≠ y.orderId) (hbound : y.filledQty.toNat + y.remainingQty.toNat < 2 ^ 32) :
    Leaves r.1 π y (tradedWith y.orderId r.2) 0 := by
  have hsub : ∀ z ∈ (x.matched locate o).queues π, z ∈ r.1.queues π := by
    intro z hz
    cases h with
    | filled _ => exact hz
    | dropped _ _ _ => exact hz
    | rested _ _ _ => exact mem_enter.mpr (Or.inr hz)
  rw [h.traded.1]
  cases hx.fate locate o hy with
  | kept hno hkeep =>
      have hnil : (x.fills locate o).trades.filter (fun t => t.1.orderId = y.orderId) = [] :=
        List.filter_eq_nil_iff.mpr fun t ht => by simpa using hno t ht
      rw [hnil]
      exact .stays y (hsub y hkeep) rfl rfl rfl rfl
  | partly n hn hlt htrades hkeep =>
      change (x.fills locate o).trades.filter _ = _ at htrades
      rw [htrades]
      have hlt' := UInt32.lt_iff_toNat_lt.mp hlt
      refine .stays _ (hsub _ hkeep) rfl rfl ?_ ?_
      · show (y.filledQty + n).toNat = _
        rw [UInt32.toNat_add, Nat.mod_eq_of_lt (by omega)]
        simp
      · show (y.remainingQty - n).toNat + _ + 0 = _
        rw [UInt32.toNat_sub_of_le _ _ (UInt32.le_of_lt hlt)]
        simp
        omega
  | usedUp htrades hgone =>
      change (x.fills locate o).trades.filter _ = _ at htrades
      rw [htrades]
      exact .gone ((h.absent_iff hne).mpr (hx.absent_matched hy hgone)) (by simp)

/-- A submission and a reference that does not rest. -/
theorem Submitted.tradedWith_eq_zero (h : Submitted keep x locate o r) (hno : x.Absent ref) :
    tradedWith ref r.2 = 0 := by
  rw [h.traded.1, List.filter_eq_nil_iff.mpr]
  · rfl
  · intro t ht
    simpa using hno _ t.1 (mem_of_mem_trades ht).1

/-- The order a call acts on is the resting order of that reference. -/
theorem eq_of_owned (hx : x.Proper) (hy : y ∈ x.queues π)
    (ho : x.owned locate y.orderId userId = some o) : o = y := by
  obtain ⟨⟨d, hd⟩, -, hid, -⟩ := mem_of_owned ho
  exact (hx.refs _ _ o y hd hy hid).2

/-- The orders that stay have other references. -/
theorem ne_of_mem_remove (hx : x.Proper) (ho : x.owned locate ref userId = some o)
    (hy : y ∈ (x.remove locate o).queues π) : ref ≠ y.orderId :=
  fun hid => absent_remove hx ho π y hy hid.symm

/-- A call and a resting order that it does not bring in. -/
theorem Does.leaves (h : Does keep x c r) (hx : x.Proper) (hy : y ∈ x.queues π)
    (hne : c.newRef? ≠ some y.orderId) (hbound : y.filledQty.toNat + y.remainingQty.toNat < 2 ^ 32)
    {left : Nat}
    (hleft : ∀ locate userId, x.owned locate y.orderId userId = some y →
      left = y.remainingQty.toNat) :
    Leaves r.1 π y (tradedWith y.orderId r.2) (c.removes r.2 y.orderId left) := by
  cases h with
  | refused code hcode _ =>
      have hzero : c.removes [.error code] y.orderId left = 0 := by
        cases c with
        | add => rfl
        | cancel => simp [Call.removes]
        | cancelShares => simp [Call.removes]
        | replace => simp [Call.removes, hcode (by simp [Call.named?])]
      rw [hzero]
      exact .stays y hy rfl rfl rfl rfl
  | @cancelled locate ref userId o ho | @usedUp locate ref userId shares o ho hle =>
      rcases eq_or_mem_remove hx ho hy with rfl | hmem
      · obtain rfl := eq_of_owned hx hy ho
        rw [hleft _ _ ho]
        exact .gone (absent_remove hx ho) (by simp [Call.removes, tradedWith,
          BinaryResponse.tradedWith])
      · exact .stays y hmem rfl rfl (by simp [tradedWith, BinaryResponse.tradedWith])
          (by simp [Call.removes, ne_of_mem_remove hx ho hmem, tradedWith,
            BinaryResponse.tradedWith])
  | @reduced locate ref userId shares o ho hlt =>
      obtain ⟨-, -, hid, -⟩ := mem_of_owned ho
      by_cases hy' : y.orderId = ref
      · subst hy'
        obtain rfl := eq_of_owned hx hy ho
        refine .stays { o with remainingQty := o.remainingQty - shares } ?_ rfl rfl
          (by simp [tradedWith, BinaryResponse.tradedWith]) ?_
        · have hplace : π = (locate, o.side.bookSide) :=
            (hx.refs _ _ o o hy (hx.mem_of_owned ho) rfl).1
          simp only [reduce, hplace, Function.update_self, Queue.modify, List.mem_map]
          exact ⟨o, hplace ▸ hy, by simp⟩
        · have hle := UInt32.le_of_lt hlt
          have hlt' := UInt32.lt_iff_toNat_lt.mp hlt
          simp only [Call.removes, tradedWith, BinaryResponse.tradedWith, List.map_cons,
            List.map_nil, List.sum_cons, List.sum_nil, UInt32.toNat_sub_of_le _ _ hle]
          simp
          omega
      · refine .stays y ?_ rfl rfl (by simp [tradedWith, BinaryResponse.tradedWith])
          (by simp [Call.removes, Ne.symm hy', tradedWith, BinaryResponse.tradedWith])
        simp only [reduce]
        by_cases hπ : π = (locate, o.side.bookSide)
        · subst hπ
          rw [Function.update_self, Queue.modify, List.mem_map]
          exact ⟨y, hy, by rw [if_neg (by rw [hid]; exact hy')]⟩
        · rwa [Function.update_of_ne hπ]
  | added _ _ hr => exact hr.leaves hx hy (fun e => hne (congrArg some e)) hbound
  | @replaced locate oldRef newRef side price quantity userId o r ho hr =>
      rcases eq_or_mem_remove hx ho hy with rfl | hmem
      · obtain rfl := eq_of_owned hx hy ho
        rw [hleft _ _ ho, hr.tradedWith_eq_zero (absent_remove hx ho)]
        exact .gone ((hr.absent_iff fun e => hne (congrArg some e)).mpr
          ((absent_remove hx ho).matched _ _)) (by simp [Call.removes, hr.out_ne])
      · have hzero : (Call.replace locate oldRef newRef side price quantity userId).removes r.2
            y.orderId left = 0 := by
          simp [Call.removes, ne_of_mem_remove hx ho hmem]
        rw [hzero]
        exact hr.leaves (hx.remove _ _) hmem (fun e => hne (congrArg some e)) hbound

/-- A call and a reference that does not rest. -/
theorem Does.untouched (h : Does keep x c r) (hno : x.Absent ref) (left : Nat) :
    tradedWith ref r.2 = 0 ∧ c.removes r.2 ref left = 0 := by
  have hne : ∀ {locate named userId : UInt64} {o : OrderInfo},
      x.owned locate named userId = some o → named ≠ ref := by
    rintro locate named userId o ho rfl
    obtain ⟨⟨d, hd⟩, -, hid, -⟩ := mem_of_owned ho
    exact hno _ o hd hid
  cases h with
  | refused code hcode _ =>
      refine ⟨rfl, ?_⟩
      cases c with
      | add => rfl
      | cancel => simp [Call.removes]
      | cancelShares => simp [Call.removes]
      | replace => simp [Call.removes, hcode (by simp [Call.named?])]
  | cancelled ho | usedUp ho _ | reduced ho _ => exact ⟨rfl, by simp [Call.removes, hne ho]⟩
  | added _ _ hr => exact ⟨hr.tradedWith_eq_zero hno, rfl⟩
  | replaced ho hr =>
      exact ⟨hr.tradedWith_eq_zero (hno.remove _ _), by simp [Call.removes, hne ho]⟩

/-- A call that does not bring a reference in leaves it away. -/
theorem Does.absent (h : Does keep x c r) (hx : x.Proper) (hno : x.Absent ref)
    (hne : c.newRef? ≠ some ref) : r.1.Absent ref := by
  intro π y hy hid
  rcases h.mem hx hy with ⟨y', hy', hl⟩ | ⟨-, hnew, -⟩
  · exact hno π y' hy' (hl.orderId.symm.trans hid)
  · exact hne (hid ▸ hnew)

/-! ### The order a call brings in -/

/-- What becomes of an incoming order, as the match left it. -/
structure Enters (x' : Exchange) (quantity : Nat) (out : List BinaryResponse)
    (o : OrderInfo) : Prop where
  original : o.originalQty.toNat = quantity
  traded : tradedTotal out + o.remainingQty.toNat = quantity
  filled : o.filledQty.toNat = tradedTotal out
  rests : (.ok o.orderId ∈ out ∧ ∃ π, o ∈ x'.queues π) ∨
    (.ok o.orderId ∉ out ∧ x'.Absent o.orderId)

/-- A submission and its own order. -/
theorem Submitted.enters (h : Submitted keep x locate o r) (hno : x.Absent o.orderId)
    (hfilled : o.filledQty = 0) (horiginal : o.originalQty = o.remainingQty) :
    Enters r.1 o.remainingQty.toNat r.2 (x.takerAfterMatch locate o) := by
  have hmatched := hno.matched locate o
  have hframes : ∀ ref, .ok ref ∉ x.tradeFrames locate o := by
    intro ref hmem
    obtain ⟨t, -, e⟩ := List.mem_map.mp hmem
    exact absurd e (by simp)
  have hrest : tradedTotal r.2 + (x.takerAfterMatch locate o).remainingQty.toNat
      = o.remainingQty.toNat := by
    rw [h.traded.2, Nat.add_comm]
    exact greedy_rest_toNat _
  refine ⟨by rw [← horiginal]; rfl, hrest, ?_, ?_⟩
  · show (o.filledQty + (o.remainingQty - (x.takerAfterMatch locate o).remainingQty)).toNat = _
    rw [hfilled, UInt32.zero_add, UInt32.toNat_sub_of_le _ _
      (UInt32.le_iff_toNat_le.mpr (by omega))]
    omega
  · show (.ok o.orderId ∈ r.2 ∧ _) ∨ (.ok o.orderId ∉ r.2 ∧ r.1.Absent o.orderId)
    cases h with
    | filled _ => exact Or.inr ⟨by simp [hframes], hmatched⟩
    | dropped tail htail _ =>
        refine Or.inr ⟨?_, hmatched⟩
        rcases htail with rfl | ⟨code, -, rfl⟩ <;> simp [hframes]
    | rested _ _ _ => exact Or.inl ⟨by simp, _, mem_enter.mpr (Or.inl ⟨rfl, rfl⟩)⟩

/-- A call and the reference it brings in. -/
theorem Does.enters (h : Does keep x c r) (hnew : c.newRef? = some ref) (hno : x.Absent ref) :
    (x.submitted? c = none ∧ r.1.Absent ref) ∨
      ∃ o, x.submitted? c = some o ∧ o.orderId = ref ∧ Enters r.1 c.quantity.toNat r.2 o := by
  cases h with
  | refused _ _ hsub => exact Or.inl ⟨hsub, hno⟩
  | cancelled _ | usedUp _ _ | reduced _ _ => exact absurd hnew (by simp [Call.newRef?])
  | added _ hsub hr =>
      rw [Call.newRef?, Option.some.injEq] at hnew
      subst hnew
      exact Or.inr ⟨_, hsub, rfl, hr.enters hno rfl rfl⟩
  | replaced ho hr =>
      rw [Call.newRef?, Option.some.injEq] at hnew
      subst hnew
      exact Or.inr ⟨_, by rw [submitted?, facing?, ho]; rfl, rfl,
        hr.enters (hno.remove _ _) rfl rfl⟩

/-- A call submits only the reference it brings in. -/
theorem orderId_of_submitted? (h : x.submitted? c = some o) :
    c.newRef? = some o.orderId := by
  obtain ⟨y, hy, rfl⟩ := Option.map_eq_some_iff.mp h
  cases c with
  | add =>
      obtain ⟨rfl, -⟩ := facing?_add hy
      rfl
  | cancel => cases hy
  | cancelShares => cases hy
  | replace =>
      obtain ⟨o', -, rfl⟩ := Option.map_eq_some_iff.mp hy
      rfl

end

end Exchange

namespace MatchingEngine

/-! ### Subtractions -/

/-- The subtractions on `remaining_qty` of a round, first of the incoming order and then of
the resting one. -/
def roundSubtractions (x : MatchState × UInt32) : List (UInt32 × UInt32) :=
  let maker := x.1.book.pool.storage x.2
  let tradeQty := min x.1.order.remainingQty maker.remainingQty
  [(x.1.order.remainingQty, tradeQty), (maker.remainingQty, tradeQty)]

/-- The subtraction of a cancel of shares that leaves some. -/
def cancelSubtractions (e : MatchingEngine) : Call → List (UInt32 × UInt32)
  | .cancelShares locate ref shares userId =>
      match e.namedSlot locate ref userId with
      | some idx =>
          if (e.pool.storage idx).remainingQty ≤ shares then []
          else [((e.pool.storage idx).remainingQty, shares)]
      | none => []
  | _ => []

/-- The subtractions on `remaining_qty` of a call, in order. -/
def subtractions (e : MatchingEngine) (c : Call) : List (UInt32 × UInt32) :=
  (e.rounds c).flatMap roundSubtractions ++ e.cancelSubtractions c

/-- No subtraction of a call wraps. -/
theorem subtractions_le (e : MatchingEngine) (c : Call) : ∀ p ∈ e.subtractions c, p.2 ≤ p.1 := by
  intro p hp
  rcases List.mem_append.mp hp with hp | hp
  · -- A round takes off the smaller of the two quantities.
    obtain ⟨x, -, hp⟩ := List.mem_flatMap.mp hp
    rw [roundSubtractions, List.mem_pair] at hp
    rcases hp with rfl | rfl
    · exact Std.min_le_left
    · exact Std.min_le_right
  · cases c with
    | cancelShares =>
        simp only [cancelSubtractions] at hp
        split at hp
        · split at hp
          · cases hp
          · rename_i hle
            rw [List.mem_singleton] at hp
            subst hp
            exact UInt32.le_of_lt (UInt32.not_le.mp hle)
        · cases hp
    | _ => cases hp

/-- What an answer says a cancel of shares took off an order that stays. -/
def takenOff (out : List BinaryResponse) : Call → List UInt32
  | .cancelShares _ ref shares _ => if .ok ref ∈ out then [shares] else []
  | _ => []

section
variable {e e' : MatchingEngine} {c : Call} {out : List BinaryResponse}

/-- A cancel of shares takes off what its answer says. -/
theorem cancelSubtractions_of_exec (h : e.exec c = some (e', out)) :
    (e.cancelSubtractions c).map Prod.snd = takenOff out c := by
  cases c with
  | cancelShares locate ref shares userId =>
      simp only [cancelSubtractions, takenOff]
      cases exec_named (e := e) (c := .cancelShares locate ref shares userId) rfl with
      | missing e₁ _ hmiss hr =>
          cases hr.symm.trans h
          simp only [Call.locate] at hmiss
          simp [namedSlot_of_misses hmiss]
      | found e₁ idx hs hl hfind huser hr =>
          have hact := hr.symm.trans h
          simp only [actOn, hs.pool] at hact
          simp only [Call.locate] at hl
          simp only [namedSlot, if_neg hl, hfind, if_pos huser]
          split at hact
          · rename_i hle
            obtain ⟨b, -, heq⟩ := Option.bind_eq_some_iff.mp hact
            cases heq
            simp [hle]
          · rename_i hle
            cases hact
            simp [hle]
      | stuck _ _ hr => cases hr.symm.trans h
  | _ => rfl

/-- The subtractions of a call are those its answer reports: each trade takes its quantity off
two orders, and a cancel of shares that leaves some takes them off one. -/
theorem subtractions_of_exec (hinv : e.Inv) (hp : Admissible [] e c)
    (h : e.exec c = some (e', out)) :
    (e.subtractions c).map Prod.snd
      = ((reportedTrades out).flatMap fun t => [t.quantity, t.quantity]) ++ takenOff out c := by
  have htrades : (reportedTrades out).map Trade.quantity
      = (e.rounds c).map fun x => (roundTrade x).2 := by
    have hall := congrArg (List.map fun t => t.2.2) (trades_of_exec hinv hp h)
    rw [List.map_map, List.map_map, List.map_map] at hall
    exact hall
  rw [subtractions, List.map_append, cancelSubtractions_of_exec h]
  congr 1
  calc ((e.rounds c).flatMap roundSubtractions).map Prod.snd
      = ((e.rounds c).map fun x => (roundTrade x).2).flatMap fun q => [q, q] := by
        rw [List.map_flatMap, List.flatMap_map]
        rfl
    _ = (reportedTrades out).flatMap fun t => [t.quantity, t.quantity] := by
        rw [← htrades, List.flatMap_map]

end

/-! ### The accounts of a run -/

section
variable {e : MatchingEngine} {c : Call} {locate ref userId : UInt64} {o : OrderInfo}

/-- The order that was matched in the engine is the one that was matched in the exchange. -/
theorem submitted_eq (h : e.Inv) (hr : e.abs.Routed c) :
    (e.submitted c).map Order.toOrderInfo = e.abs.submitted? c := by
  cases c with
  | add locate ref side price quantity userId tif =>
      rcases processAdd_eq e locate ref side price quantity userId tif with
        ⟨code, e', href, -, -⟩ | ⟨href, e', hopen, ⟨hs, -, -⟩, -, -⟩
      · simp [submitted, Exchange.submitted?, Exchange.facing?, href]
      · have hinv := hs.inv h
        obtain ⟨e₂, hsub, hs₂⟩ := submitAdd_prepared e' locate ref side price quantity userId tif
        obtain ⟨e₃, hm, -⟩ := matchSide_spec (show e₂.Inv from hs₂.inv hinv) locate
          (e'.newOrder ref side (limitPrice tif side price) quantity userId)
        have hcan := canFullFill_eq hinv locate side (limitPrice tif side price) quantity
        have habs : e₂.abs = e.abs := hs₂.abs.trans hs.abs
        rw [hs.abs] at hcan
        simp only [submitted, href, if_true, hopen, Option.bind_eq_bind, Option.bind_some, hcan,
          hsub, hm, Exchange.submitted?, Exchange.facing?, true_and, habs]
        by_cases hfull : tif = .fok → quantity ≤ Queue.available side.bookSide.opposite
            (limitPrice tif side price) (e.abs.queues (locate, side.bookSide.opposite))
        · rw [if_pos hfull, if_neg (by simpa using hfull)]
          rfl
        · rw [if_neg hfull, if_pos (by simpa using hfull)]
          rfl
  | cancel => rfl
  | cancelShares => rfl
  | replace locate oldRef newRef side price quantity userId =>
      rcases opened_named e locate with ⟨hl, hnone⟩ | ⟨hl, e₁, hsome, ho⟩
      · simp [submitted, hnone, Exchange.submitted?, Exchange.facing?, Exchange.owned, hl]
      · simp only [submitted, hsome, Option.bind_eq_bind, Option.bind_some, OrderBook.findOrder,
          Exchange.submitted?, Exchange.facing?]
        generalize he₂ : e₁.log _ = e₂
        have hs₂ : Same e e₂ := he₂ ▸ ho.toSame.trans (Same.log e₁ _)
        have hinv := hs₂.inv h
        rw [← hs₂.abs] at hr ⊢
        rcases owned_eq hinv hr with ⟨-, i, d, hfind, huser, hi, howned⟩ | ⟨howned, hmiss⟩
        · obtain ⟨b, hrem, hinv', habs', -⟩ := hinv.removeOrder hi
          obtain ⟨e₃, hm, -⟩ := matchSide_spec
            (show (e₂.putBook locate b).bumpSequence.Inv from hinv') locate
            ((e₂.putBook locate b).newOrder newRef side price quantity newRef)
          have habs : (e₂.putBook locate b).bumpSequence.abs
            = e₂.abs.remove locate (e₂.pool.info i) := habs'
          simp only [book] at hrem
          simp [book, hfind, huser, submitReplace, hrem, hm, howned, habs]
          rfl
        · rw [howned]
          rcases hmiss with hl' | hfind | ⟨i, hfind, huser⟩
          · exact absurd hl' hl
          · simp [book, hfind]
          · simp [book, hfind, huser]

/-- What is left of an order a call acts on. -/
theorem remainingOf_of_owned (h : e.Inv) (ho : e.abs.owned locate ref userId = some o) :
    e.remainingOf ref = o.remainingQty.toNat := by
  obtain ⟨⟨d, hd⟩, hx, hid, -⟩ := Exchange.mem_of_owned ho
  obtain ⟨i, hi⟩ := Option.isSome_iff_exists.mp (show (e.index.lookup ref).isSome = true from hx)
  obtain ⟨hidi, π, hπ⟩ := h.sound ref i hi
  obtain ⟨j, hj, rfl⟩ := List.mem_map.mp hd
  obtain rfl := h.refs _ _ i j hπ hj (hidi.trans hid.symm)
  rw [remainingOf, OrderMap.find_eq_lookup h.wf, hi]
  rfl

/-- No call of the history brought the reference in. -/
def Unused (h : List (Call × List BinaryResponse)) (ref : UInt64) : Prop :=
  ∀ x ∈ h, x.1.newRef? ≠ some ref

/-- What callers promise here: no reference is used twice, and a call that names a resting
order is addressed to its book. -/
def NeverReused (h : List (Call × List BinaryResponse))
    (s : MatchingEngine × (UInt64 → Account)) (c : Call) : Prop :=
  (∀ ref, c.newRef? = some ref → Unused h ref) ∧ s.1.abs.Routed c

/-- The account of a reference and what rests under it. -/
structure Balances (x : Exchange) (ref : UInt64) (a : Account) : Prop where
  rests : ∀ π, ∀ o ∈ x.queues π, o.orderId = ref →
    a.given = a.taken + a.made + a.removed + o.remainingQty.toNat ∧ a.discarded = 0 ∧
      o.filledQty.toNat = a.taken + a.made ∧ o.originalQty.toNat = a.given
  gone : x.Absent ref → a.given = a.taken + a.made + a.removed + a.discarded

/-- The invariant of a run: the accounts balance, and those of unused references are
empty. -/
structure Accounted (h : List (Call × List BinaryResponse))
    (s : MatchingEngine × (UInt64 → Account)) : Prop where
  inv : s.1.Inv
  balances : ∀ ref, Balances s.1.abs ref (s.2 ref)
  unused : ∀ ref, Unused h ref → s.2 ref = {} ∧ s.1.abs.Absent ref

/-- References that are not used twice are fresh. -/
theorem Accounted.admissible {h : List (Call × List BinaryResponse)}
    {s : MatchingEngine × (UInt64 → Account)} (ha : Accounted h s) (hp : NeverReused h s c) :
    Admissible h s.1 c := by
  refine ⟨?_, hp.2⟩
  cases c with
  | add _ ref => exact (ha.unused ref (hp.1 ref rfl)).2
  | cancel => trivial
  | cancelShares => trivial
  | replace _ _ ref => exact Or.inr (ha.unused ref (hp.1 ref rfl)).2

/-- The account of a reference the call does not bring in. -/
theorem record_of_ne (h : e.Inv) (hr : e.abs.Routed c) (hne : c.newRef? ≠ some ref)
    (out : List BinaryResponse) (accounts : UInt64 → Account) :
    e.record c out accounts ref = { accounts ref with
      made := (accounts ref).made + tradedWith ref out
      removed := (accounts ref).removed + c.removes out ref (e.remainingOf ref) } := by
  have hsub := submitted_eq h hr
  unfold record
  split
  · rename_i order ho
    rw [ho] at hsub
    rw [if_neg]
    rintro rfl
    exact hne (Exchange.orderId_of_submitted? hsub.symm)
  · rfl

/-- The account of the reference a call brings in. -/
theorem balances_new {e' : MatchingEngine} {keep : Bool} {out : List BinaryResponse} (h : e.Inv)
    (h' : e'.Inv) (hr : e.abs.Routed c) (hdoes : Exchange.Does keep e.abs c (e'.abs, out))
    (hnew : c.newRef? = some ref) {accounts : UInt64 → Account} (hempty : accounts ref = {})
    (hno : e.abs.Absent ref) :
    Balances e'.abs ref (e.record c out accounts ref) := by
  have hsub := submitted_eq h hr
  obtain ⟨hmade, hremoved⟩ := hdoes.untouched hno (e.remainingOf ref)
  unfold record
  rw [hempty, hmade, hremoved]
  rcases hdoes.enters hnew hno with ⟨hnone, hgone⟩ | ⟨o, hsome, hid, hent⟩
  · rw [hnone, Option.map_eq_none_iff] at hsub
    rw [hsub]
    exact ⟨fun π o ho hid => absurd hid (hgone π o ho), fun _ => rfl⟩
  · rw [hsome, Option.map_eq_some_iff] at hsub
    obtain ⟨order, horder, rfl⟩ := hsub
    have htraded : tradedTotal out + order.remainingQty.toNat = c.quantity.toNat := hent.traded
    simp only [horder, hid, if_true]
    rcases hent.rests with ⟨hok, π, hrest⟩ | ⟨hok, hgone⟩
    · rw [hid] at hok
      rw [if_pos hok]
      refine ⟨fun π' o ho hid' => ?_, fun hgone => absurd hid (hgone π _ hrest)⟩
      obtain ⟨-, rfl⟩ := h'.proper.refs _ _ o _ ho hrest (hid'.trans hid.symm)
      have hfilled : order.filledQty.toNat = tradedTotal out := hent.filled
      have horiginal := hent.original
      simp only [true_and]
      omega
    · rw [hid] at hok hgone
      rw [if_neg hok]
      refine ⟨fun π' o ho hid' => absurd hid' (hgone π' o ho), fun _ => ?_⟩
      simp only
      omega

/-- The account of a reference the call does not bring in. -/
theorem balances_old {e' : MatchingEngine} {keep : Bool} {out : List BinaryResponse} (h : e.Inv)
    (h' : e'.Inv) (hr : e.abs.Routed c) (hdoes : Exchange.Does keep e.abs c (e'.abs, out))
    (hne : c.newRef? ≠ some ref) {accounts : UInt64 → Account}
    (hb : Balances e.abs ref (accounts ref)) :
    Balances e'.abs ref (e.record c out accounts ref) := by
  rw [record_of_ne h hr hne]
  by_cases hno : e.abs.Absent ref
  · obtain ⟨hmade, hremoved⟩ := hdoes.untouched hno (e.remainingOf ref)
    have hgone := hdoes.absent h.proper hno hne
    rw [hmade, hremoved]
    exact ⟨fun π o ho hid => absurd hid (hgone π o ho), fun _ => hb.gone hno⟩
  · obtain ⟨π, o, ho, rfl⟩ : ∃ π, ∃ o ∈ e.abs.queues π, o.orderId = ref := by
      simpa [Exchange.Absent] using hno
    obtain ⟨hgiven, hdisc, hfilled, horiginal⟩ := hb.rests π o ho rfl
    have hlt := o.originalQty.toNat_lt
    have hl := hdoes.leaves h.proper ho hne (by omega)
      fun locate userId hown => remainingOf_of_owned h hown
    cases hl with
    | stays o' ho' hid horiginal' hfilled' hrem =>
        refine ⟨fun π' y hy hidy => ?_, fun hgone => absurd hid (hgone π o' ho')⟩
        obtain ⟨-, rfl⟩ := h'.proper.refs _ _ y o' hy ho' (hidy.trans hid.symm)
        simp only at hfilled' hrem
        simp only [horiginal']
        omega
    | gone hgone hrem =>
        refine ⟨fun π' y hy hidy => absurd hidy (hgone π' y hy), fun _ => ?_⟩
        simp only at hrem
        simp only
        omega

/-- A call keeps the accounts. -/
theorem Accounted.step {h : List (Call × List BinaryResponse)}
    {s s' : MatchingEngine × (UInt64 → Account)} {out : List BinaryResponse}
    (ha : Accounted h s) (hp : NeverReused h s c) (hstep : execRecorded s c = some (s', out)) :
    Accounted (h ++ [(c, out)]) s' := by
  obtain ⟨⟨e', out'⟩, hexec, heq⟩ := Option.map_eq_some_iff.mp hstep
  rw [Prod.mk.injEq] at heq
  obtain ⟨rfl, rfl⟩ := heq
  have hst := stepsTo_of_exec ha.inv (ha.admissible hp) hexec
  have hdoes : Exchange.Does (!s.1.drops c) s.1.abs c (e'.abs, out') :=
    hst.abs ▸ Exchange.step_does _ _ c
  refine ⟨hst.inv, fun ref => ?_, fun ref hun => ?_⟩
  · by_cases hnew : c.newRef? = some ref
    · obtain ⟨hempty, hno⟩ := ha.unused ref (hp.1 ref hnew)
      exact balances_new ha.inv hst.inv hp.2 hdoes hnew hempty hno
    · exact balances_old ha.inv hst.inv hp.2 hdoes hnew (ha.balances ref)
  · have hne : c.newRef? ≠ some ref := hun (c, out') (by simp)
    obtain ⟨hempty, hno⟩ := ha.unused ref fun x hx => hun x (List.mem_append_left _ hx)
    obtain ⟨hmade, hremoved⟩ := hdoes.untouched hno (s.1.remainingOf ref)
    refine ⟨?_, hdoes.absent ha.inv.proper hno hne⟩
    simp only [record_of_ne ha.inv hp.2 hne, hempty, hmade, hremoved]

end

/-- Quantities are conserved. In every state of a run that uses no reference twice and
addresses its calls to the right books, the quantity that was given with a reference is what
it traded as the incoming order and as a resting one, what cancels and replacements took off,
and what still rests or was discarded. A resting order has filled exactly what it traded, and
no subtraction on `remaining_qty` of a call wraps. -/
theorem quantity_conserved {c : Nat} {metrics : Option IOCounters} {wal : Option WalWriter}
    {tradePool : Option TradePool} {e₀ : MatchingEngine}
    {h : List (Call × List BinaryResponse)} {s : MatchingEngine × (UInt64 → Account)}
    (h₀ : ofCapacity c metrics wal tradePool = some e₀)
    (t : Trace execRecorded NeverReused (e₀, fun _ => {}) h s) :
    (∀ π, ∀ o ∈ s.1.abs.queues π,
      let a := s.2 o.orderId
      a.given = a.taken + a.made + a.removed + o.remainingQty.toNat + a.discarded ∧
        o.filledQty.toNat = a.taken + a.made ∧
        o.remainingQty.toNat + o.filledQty.toNat ≤ o.originalQty.toNat) ∧
    (∀ ref, s.1.abs.Absent ref →
      let a := s.2 ref
      a.given = a.taken + a.made + a.removed + a.discarded) ∧
    ∀ call, ∀ p ∈ s.1.subtractions call, p.2 ≤ p.1 := by
  have hstart : Accounted [] (e₀, fun _ => {}) := by
    have hno : ∀ ref, e₀.abs.Absent ref := by
      intro ref π o ho
      rw [abs_ofCapacity h₀] at ho
      exact absurd ho List.not_mem_nil
    exact ⟨Inv.start h₀, fun ref => ⟨fun π o ho hid => absurd hid (hno ref π o ho),
      fun _ => rfl⟩, fun ref _ => ⟨rfl, hno ref⟩⟩
  have ha : Accounted h s := by
    refine t.invariant (fun h s => Accounted h s) hstart
      fun h s c s' out _ ha hp hstep => ha.step hp hstep
  refine ⟨fun π o ho => ?_, fun ref hno => (ha.balances ref).gone hno, subtractions_le s.1⟩
  obtain ⟨hgiven, hdisc, hfilled, horiginal⟩ := (ha.balances o.orderId).rests π o ho rfl
  refine ⟨?_, hfilled, ?_⟩ <;> omega

/-- A buy of 5 rests, a sell of 2 takes 2 of it, and an immediate sell of 4 above it is
discarded. -/
theorem quantity_conserved_partly : ∃ e₀ s, ∃ h : List (Call × List BinaryResponse),
    ofCapacity 4 none none none = some e₀ ∧
    h.map Prod.fst = [.add 0 1 .buy 100 5 7 .day, .add 0 2 .sell 100 2 8 .day,
      .add 0 3 .sell 101 4 8 .ioc] ∧
    Trace execRecorded NeverReused (e₀, fun _ => {}) h s ∧
    s.2 1 = { given := 5, made := 2 } ∧ s.2 2 = { given := 2, taken := 2 } ∧
    s.2 3 = { given := 4, discarded := 4 } ∧
    ∀ π, ∀ o ∈ s.1.abs.queues π, (s.2 o.orderId).given = (s.2 o.orderId).taken
      + (s.2 o.orderId).made + (s.2 o.orderId).removed + o.remainingQty.toNat
      + (s.2 o.orderId).discarded := by
  have hrun : ((ofCapacity 4 none none none).bind fun e₀ =>
      (execRecorded (e₀, fun _ => {}) (.add 0 1 .buy 100 5 7 .day)).bind fun r₁ =>
      (execRecorded r₁.1 (.add 0 2 .sell 100 2 8 .day)).bind fun r₂ =>
      (execRecorded r₂.1 (.add 0 3 .sell 101 4 8 .ioc)).map fun r₃ =>
        (r₃.1.2 1, r₃.1.2 2, r₃.1.2 3))
      = some ({ given := 5, made := 2 }, { given := 2, taken := 2 },
        { given := 4, discarded := 4 }) := by
    decide +kernel
  simp only [Option.bind_eq_some_iff, Option.map_eq_some_iff, Prod.mk.injEq] at hrun
  obtain ⟨e₀, h₀, ⟨s₁, out₁⟩, hs₁, ⟨s₂, out₂⟩, hs₂, ⟨s₃, out₃⟩, hs₃, ha₁, ha₂, ha₃⟩ := hrun
  have t : Trace execRecorded NeverReused (e₀, fun _ => {})
      [(.add 0 1 .buy 100 5 7 .day, out₁), (.add 0 2 .sell 100 2 8 .day, out₂),
        (.add 0 3 .sell 101 4 8 .ioc, out₃)] s₃ :=
    ((Trace.nil.snoc ⟨by simp [Unused], trivial⟩ hs₁).snoc
      ⟨by simp [Unused, Call.newRef?], trivial⟩ hs₂).snoc
      ⟨by simp [Unused, Call.newRef?], trivial⟩ hs₃
  exact ⟨e₀, s₃, _, h₀, rfl, t, ha₁, ha₂, ha₃,
    fun π o ho => ((quantity_conserved h₀ t).1 π o ho).1⟩

end MatchingEngine

end NebulaX
