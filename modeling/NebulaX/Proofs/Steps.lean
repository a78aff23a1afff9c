import NebulaX.Proofs.Greedy

/-!
# `NebulaX.Proofs.Steps`: what a step of the exchange can do

`Does` lists the outcomes of a call with their guards, and `step_does` says that a step is
one of them. An invariant of the exchange is proved by cases on `Does`.

Two of the cases submit an order: it is matched, and what is left of it is dropped or rests.
`Submitted` lists how that can end. `Thins` is what the cases do to the orders that were
there: some go, some lose quantity, nothing else about them changes.
-/

set_option autoImplicit false

namespace NebulaX

/-- The reference a call brings in. -/
def Call.newRef? : Call → Option UInt64
  | .add _ ref .. => some ref
  | .replace _ _ ref .. => some ref
  | _ => none

/-- The user on whose behalf a call matches. A replacement belongs to its own reference. -/
def Call.taker? : Call → Option UInt64
  | .add _ _ _ _ _ userId _ => some userId
  | .replace _ _ newRef .. => some newRef
  | _ => none

namespace Exchange

/-- The frames of the trades of an incoming order. -/
def tradeFrames (x : Exchange) (locate : UInt64) (o : OrderInfo) : List BinaryResponse :=
  (x.fills locate o).frames locate o.side.bookSide.opposite

/-- The incoming order after its match. -/
def takerAfterMatch (x : Exchange) (locate : UInt64) (o : OrderInfo) : OrderInfo :=
  (x.fills locate o).taker o

/-- The exchange a call is matched in and its order, for a call that gets that far. -/
def facing? (x : Exchange) : Call → Option (Exchange × OrderInfo)
  | .add locate ref side price quantity userId tif =>
      let limit := MatchingEngine.limitPrice tif side price
      if refusal locate ref side price quantity userId tif = none ∧ (tif = .fok →
          quantity ≤ Queue.available side.bookSide.opposite limit
            (x.queues (locate, side.bookSide.opposite))) then
        some (x, incoming ref side limit quantity userId)
      else none
  | .replace locate oldRef newRef side price quantity userId =>
      (x.owned locate oldRef userId).map fun o =>
        (x.remove locate o, incoming newRef side price quantity newRef)
  | _ => none

/-- The incoming order of a call after its match. -/
def submitted? (x : Exchange) (c : Call) : Option OrderInfo :=
  (x.facing? c).map fun y => y.1.takerAfterMatch c.locate y.2

/-- A new order is matched as it comes. -/
theorem facing?_add {x : Exchange} {y : Exchange × OrderInfo} {locate ref : UInt64} {side : Side}
    {price quantity : UInt32} {userId : UInt64} {tif : OrderTif}
    (h : x.facing? (.add locate ref side price quantity userId tif) = some y) :
    y = (x, incoming ref side (MatchingEngine.limitPrice tif side price) quantity userId) ∧
      refusal locate ref side price quantity userId tif = none ∧ (tif = .fok →
        quantity ≤ Queue.available side.bookSide.opposite (MatchingEngine.limitPrice tif side price)
          (x.queues (locate, side.bookSide.opposite))) := by
  rw [facing?] at h
  split at h
  · rename_i hpass
    exact ⟨(Option.some.inj h).symm, hpass⟩
  · cases h

/-- An order that traded and is not filled finds a free slot: each order it traded with has been
used up and has given its slot back. -/
theorem free_ne_zero_of_traded {x : Exchange} {locate : UInt64} {o : OrderInfo}
    (hopen : o.status = .opened) (hs : (x.takerAfterMatch locate o).status ≠ .filled)
    (ht : (x.fills locate o).trades ≠ []) : (x.matched locate o).free ≠ 0 := by
  have hrest : (x.fills locate o).rest ≠ 0 := fun hz =>
    hs ((taker_filled_iff _ hopen).mpr ⟨ht, hz⟩)
  obtain ⟨t, hmem⟩ := List.exists_mem_of_ne_nil _ ht
  have hused : t.1.orderId ∈ (x.fills locate o).consumed := by
    have hall := usedUp_of_rest hrest hmem
    exact List.mem_map_of_mem (List.mem_filter.mpr ⟨hmem, decide_eq_true hall⟩)
  have hpos := List.length_pos_of_mem hused
  show x.free + (x.fills locate o).consumed.length ≠ 0
  omega

/-! ### Outcomes -/

/-- The outcomes of an order that is matched. -/
inductive Submitted (keep : Bool) (x : Exchange) (locate : UInt64) (o : OrderInfo) :
    Exchange × List BinaryResponse → Prop
  | filled (hs : (x.takerAfterMatch locate o).status = .filled) :
      Submitted keep x locate o (x.matched locate o, x.tradeFrames locate o ++ [.filled o.orderId])
  | dropped (tail : List BinaryResponse)
      (htail : tail = [] ∨ ∃ code, code ≠ .orderNotFound ∧ tail = [.error code])
      (hs : (x.takerAfterMatch locate o).status ≠ .filled) :
      Submitted keep x locate o (x.matched locate o, x.tradeFrames locate o ++ tail)
  | rested (hs : (x.takerAfterMatch locate o).status ≠ .filled) (hside : o.side ≠ .invalid)
      (hfree : (x.matched locate o).free ≠ 0) :
      Submitted keep x locate o ((x.matched locate o).enter keep locate
        (x.takerAfterMatch locate o), x.tradeFrames locate o ++ [.ok o.orderId])

/-- The outcomes of a call. -/
inductive Does (keep : Bool) (x : Exchange) : Call → Exchange × List BinaryResponse → Prop
  | refused {c : Call} (code : ErrorCode) (hcode : c.named? ≠ none → code = .orderNotFound)
      (hsub : x.submitted? c = none)
      (hown : ∀ ref userId, c.named? = some (ref, userId) → x.owned c.locate ref userId = none) :
      Does keep x c (x, [.error code])
  | cancelled {locate ref userId : UInt64} {o : OrderInfo}
      (ho : x.owned locate ref userId = some o) :
      Does keep x (.cancel locate ref userId) (x.remove locate o, [.cancelled ref])
  | usedUp {locate ref userId : UInt64} {shares : UInt32} {o : OrderInfo}
      (ho : x.owned locate ref userId = some o) (hle : o.remainingQty ≤ shares) :
      Does keep x (.cancelShares locate ref shares userId) (x.remove locate o, [.cancelled ref])
  | reduced {locate ref userId : UInt64} {shares : UInt32} {o : OrderInfo}
      (ho : x.owned locate ref userId = some o) (hlt : shares < o.remainingQty) :
      Does keep x (.cancelShares locate ref shares userId) (x.reduce locate o shares, [.ok ref])
  | added {locate ref : UInt64} {side : Side} {price quantity : UInt32} {userId : UInt64}
      {tif : OrderTif} {r : Exchange × List BinaryResponse}
      (hok : refusal locate ref side price quantity userId tif = none)
      (hsub : x.submitted? (.add locate ref side price quantity userId tif)
        = some (x.takerAfterMatch locate
          (incoming ref side (MatchingEngine.limitPrice tif side price) quantity userId)))
      (hr : Submitted keep x locate
        (incoming ref side (MatchingEngine.limitPrice tif side price) quantity userId) r) :
      Does keep x (.add locate ref side price quantity userId tif) r
  | replaced {locate oldRef newRef : UInt64} {side : Side} {price quantity : UInt32}
      {userId : UInt64} {o : OrderInfo} {r : Exchange × List BinaryResponse}
      (ho : x.owned locate oldRef userId = some o)
      (hr : Submitted keep (x.remove locate o) locate
        (incoming newRef side price quantity newRef) r) :
      Does keep x (.replace locate oldRef newRef side price quantity userId) r

variable {keep : Bool} {x : Exchange} {locate ref userId : UInt64} {o y : OrderInfo} {c : Call}
variable {r : Exchange × List BinaryResponse} {π : Place} {shares : UInt32}

/-- An order that may rest. -/
theorem submitDay_submitted (keep : Bool) (x : Exchange) (locate : UInt64) (o : OrderInfo) :
    Submitted keep x locate o (x.submitDay keep locate o) := by
  unfold submitDay
  by_cases hs : (x.takerAfterMatch locate o).status = .filled
  · have hs' : ((x.fills locate o).taker o).status = .filled := hs
    simp only [hs', if_true]
    exact .filled hs
  · have hs' : ¬ ((x.fills locate o).taker o).status = .filled := hs
    simp only [hs', if_false, Exchange.rest]
    split
    · exact .dropped _ (Or.inr ⟨_, by decide, rfl⟩) hs
    · rename_i hr
      obtain ⟨hside, hfree⟩ := not_or.mp hr
      exact .rested hs hside hfree

/-- What follows the trades in the answer to an order that may not rest. -/
theorem submitNow_tail (x : Exchange) (locate : UInt64) (o : OrderInfo) (needed : UInt32)
    (code : ErrorCode) : ∃ tail, (x.submitNow locate o needed code).2
      = x.tradeFrames locate o ++ tail ∧ ∀ t, BinaryResponse.trade t ∉ tail := by
  simp only [submitNow]
  split
  · exact ⟨_, rfl, by simp⟩
  · split
    · exact ⟨_, rfl, by simp⟩
    · exact ⟨[], (List.append_nil _).symm, by simp⟩

/-- An order that may not rest. -/
theorem submitNow_submitted (keep : Bool) (x : Exchange) (locate : UInt64) (o : OrderInfo)
    (needed : UInt32) {code : ErrorCode} (hcode : code ≠ .orderNotFound) :
    Submitted keep x locate o (x.submitNow locate o needed code) := by
  unfold submitNow
  by_cases hs : (x.takerAfterMatch locate o).status = .filled
  · have hs' : ((x.fills locate o).taker o).status = .filled := hs
    simp only [hs', if_true]
    exact .filled hs
  · have hs' : ¬ ((x.fills locate o).taker o).status = .filled := hs
    simp only [hs', if_false]
    split
    · exact .dropped _ (Or.inr ⟨_, hcode, rfl⟩) hs
    · rw [← List.append_nil ((x.fills locate o).frames locate o.side.bookSide.opposite)]
      exact .dropped [] (Or.inl rfl) hs

/-- A step is one of the outcomes. -/
theorem step_does (keep : Bool) (x : Exchange) (c : Call) : Does keep x c (x.step keep c) := by
  cases c with
  | add locate ref side price quantity userId tif =>
      simp only [step, add]
      cases hok : refusal locate ref side price quantity userId tif with
      | some code =>
          exact .refused code (fun h => absurd rfl h)
            (by simp [submitted?, facing?, hok, Call.locate]) (by rintro _ _ ⟨⟩)
      | none =>
          cases tif with
          | day =>
              exact .added hok (by simp [submitted?, facing?, hok, Call.locate])
                (submitDay_submitted ..)
          | ioc =>
              exact .added hok (by simp [submitted?, facing?, hok, Call.locate])
                (submitNow_submitted keep x locate _ 1 (by decide))
          | fok =>
              simp only
              split
              · rename_i hfull
                exact .added hok (by simp [submitted?, facing?, hok, hfull, Call.locate])
                  (submitNow_submitted keep x locate _ quantity (by decide))
              · rename_i hfull
                exact .refused _ (fun h => absurd rfl h) (by simp [submitted?, facing?, hfull])
                  (by rintro _ _ ⟨⟩)
  | cancel locate ref userId =>
      simp only [step, cancel]
      cases ho : x.owned locate ref userId with
      | none => exact .refused _ (fun _ => rfl) rfl (by rintro _ _ ⟨⟩; exact ho)
      | some o => exact .cancelled ho
  | cancelShares locate ref shares userId =>
      simp only [step, cancelShares]
      cases ho : x.owned locate ref userId with
      | none => exact .refused _ (fun _ => rfl) rfl (by rintro _ _ ⟨⟩; exact ho)
      | some o =>
          simp only
          split
          · exact .usedUp ho ‹_›
          · exact .reduced ho (UInt32.not_le.mp ‹_›)
  | replace locate oldRef newRef side price quantity userId =>
      simp only [step, replace]
      cases ho : x.owned locate oldRef userId with
      | none =>
          refine .refused _ (fun _ => rfl) (by simp [submitted?, facing?, ho]) ?_
          rintro _ _ ⟨⟩
          exact ho
      | some o => exact .replaced ho (submitDay_submitted ..)

/-! ### The frames of a submission -/

/-- A trade frame of a match is that of one of its trades. -/
theorem mem_tradeFrames {t : Trade} :
    .trade t ∈ x.tradeFrames locate o ↔ ∃ p ∈ (x.fills locate o).trades,
      t = { locate := locate, orderRef := p.1.orderId, side := o.side.bookSide.opposite.side
            price := p.1.price, quantity := p.2 } := by
  simp only [tradeFrames, Fills.frames, List.mem_map, BinaryResponse.trade.injEq]
  exact ⟨fun ⟨p, hp, e⟩ => ⟨p, hp, e.symm⟩, fun ⟨p, hp, e⟩ => ⟨p, hp, e.symm⟩⟩

/-- The answer to a submission is its trades and what follows them. -/
theorem Submitted.out (h : Submitted keep x locate o r) :
    ∃ tail, r.2 = x.tradeFrames locate o ++ tail ∧ tail ≠ [.error .orderNotFound] ∧
      ∀ t, .trade t ∉ tail := by
  cases h with
  | filled _ => exact ⟨_, rfl, by simp, by simp⟩
  | dropped tail htail _ =>
      refine ⟨tail, rfl, ?_, ?_⟩
      · rcases htail with rfl | ⟨code, hcode, rfl⟩
        · simp
        · simpa using hcode
      · rcases htail with rfl | ⟨code, -, rfl⟩ <;> simp
  | rested _ _ _ => exact ⟨_, rfl, by simp, by simp⟩

/-- A submission never answers that there is no such order. -/
theorem Submitted.out_ne (h : Submitted keep x locate o r) :
    r.2 ≠ [.error .orderNotFound] := by
  obtain ⟨tail, hout, htail, -⟩ := h.out
  rw [hout]
  cases hf : x.tradeFrames locate o with
  | nil => exact htail
  | cons f fs =>
      obtain ⟨t, -, rfl⟩ := List.mem_map.mp (hf ▸ List.mem_cons_self : f ∈ x.tradeFrames locate o)
      simp

/-! ### Exchanges that stand for a state -/

/-- What the exchange of an engine state has besides its queues: no reference rests twice,
orders stand on their side, best price first, and the index knows resting orders only. -/
structure Proper (x : Exchange) : Prop where
  refs : ∀ π π' o o', o ∈ x.queues π → o' ∈ x.queues π' → o.orderId = o'.orderId →
    π = π' ∧ o = o'
  nodup : ∀ π, ((x.queues π).map OrderInfo.orderId).Nodup
  sides : ∀ π, ∀ o ∈ x.queues π, o.side.bookSide = π.2
  sorted : ∀ π, Queue.Sorted π.2 (x.queues π)
  indexed : ∀ ref, x.indexed ref = true → ∃ π, ∃ o ∈ x.queues π, o.orderId = ref

/-- The order a call may act on rests in the book, is indexed, has the reference and
belongs to the user. -/
theorem mem_of_owned (h : x.owned locate ref userId = some o) :
    (∃ d, o ∈ x.queues (locate, d)) ∧ x.indexed ref = true ∧ o.orderId = ref ∧
      o.userId = userId := by
  unfold owned at h
  split at h
  · exact absurd h (by simp)
  · rw [Option.filter_eq_some_iff] at h
    obtain ⟨hf, hu⟩ := h
    unfold find at hf
    split at hf
    · rename_i hx
      have hid : o.orderId = ref := by simpa using List.find?_some hf
      refine ⟨?_, hx, hid, by simpa using hu⟩
      rcases List.mem_append.mp (List.mem_of_find?_eq_some hf) with ho | ho
      · exact ⟨_, ho⟩
      · exact ⟨_, ho⟩
    · exact absurd hf (by simp)

/-- An order stands on the side its own side says. -/
theorem Proper.bookSide (hx : x.Proper) (ho : o ∈ x.queues π) :
    o.side.bookSide = π.2 :=
  hx.sides π o ho

/-- The order a call may act on stands on the side its own side says. -/
theorem Proper.mem_of_owned (hx : x.Proper) (h : x.owned locate ref userId = some o) :
    o ∈ x.queues (locate, o.side.bookSide) := by
  obtain ⟨⟨d, hd⟩, -⟩ := Exchange.mem_of_owned h
  rw [hx.bookSide hd]
  exact hd

/-- With one book in use, every call is addressed to the book its order rests in. -/
theorem routed_of_only (honly : ∀ π, ∀ o ∈ x.queues π, π.1 = c.locate) : x.Routed c := by
  cases c with
  | add => trivial
  | cancel | cancelShares | replace => exact fun π o ho _ _ _ => honly π o ho

/-! ### Orders that were there -/

/-- Order `o` is what is left of `o'`: its identity is the same, its quantity did not grow
and is not used up. -/
structure LeftOf (o o' : OrderInfo) : Prop where
  orderId : o.orderId = o'.orderId
  userId : o.userId = o'.userId
  side : o.side = o'.side
  price : o.price = o'.price
  le : o.remainingQty ≤ o'.remainingQty
  ne_zero : o'.remainingQty ≠ 0 → o.remainingQty ≠ 0

theorem LeftOf.refl (o : OrderInfo) : LeftOf o o :=
  ⟨rfl, rfl, rfl, rfl, UInt32.le_refl _, id⟩

theorem LeftOf.trans {a b c : OrderInfo} (h : LeftOf a b) (h' : LeftOf b c) : LeftOf a c :=
  ⟨h.orderId.trans h'.orderId, h.userId.trans h'.userId, h.side.trans h'.side,
    h.price.trans h'.price, UInt32.le_trans h.le h'.le, fun hc => h.ne_zero (h'.ne_zero hc)⟩

/-- Taking less than there is leaves something. -/
theorem sub_le_and_ne_zero {a n : UInt32} (h : n < a) : a - n ≤ a ∧ a - n ≠ 0 := by
  have hle : n ≤ a := UInt32.le_of_lt h
  rw [UInt32.lt_iff_toNat_lt] at h
  refine ⟨?_, fun e => ?_⟩
  · rw [UInt32.le_iff_toNat_le, UInt32.toNat_sub_of_le _ _ hle]
    omega
  · have := congrArg UInt32.toNat e
    rw [UInt32.toNat_sub_of_le _ _ hle, UInt32.toNat_zero] at this
    omega

/-- Every order of `x'` is what is left of an order of `x` in the same place. -/
def Thins (x x' : Exchange) : Prop :=
  ∀ π, ∀ o ∈ x'.queues π, ∃ o' ∈ x.queues π, LeftOf o o'

section
variable {x' x'' : Exchange}

/-- A removal. -/
theorem thins_remove (x : Exchange) (locate : UInt64) (o : OrderInfo) :
    Thins x (x.remove locate o) := by
  intro π y hy
  refine ⟨y, ?_, LeftOf.refl y⟩
  simp only [remove] at hy
  by_cases hπ : π = (locate, o.side.bookSide)
  · subst hπ
    rw [Function.update_self] at hy
    exact List.mem_of_mem_filter hy
  · rwa [Function.update_of_ne hπ] at hy

/-- A match. -/
theorem thins_matched (x : Exchange) (locate : UInt64) (o : OrderInfo) :
    Thins x (x.matched locate o) := by
  intro π y hy
  simp only [matched, settled] at hy
  by_cases hπ : π = (locate, o.side.bookSide.opposite)
  · subst hπ
    rw [Function.update_self] at hy
    rcases mem_greedy_queue hy with hy | ⟨y', hy', n, hn, hlt, rfl⟩
    · exact ⟨y, hy, LeftOf.refl y⟩
    · obtain ⟨hle, hne⟩ := sub_le_and_ne_zero hlt
      exact ⟨y', hy', rfl, rfl, rfl, rfl, hle, fun _ => hne⟩
  · rw [Function.update_of_ne hπ] at hy
    exact ⟨y, hy, LeftOf.refl y⟩

/-- What a partial cancel leaves of an order of the queue. -/
theorem leftOf_reduced (hx : x.Proper) (ho : x.owned locate ref userId = some o)
    (hlt : shares < o.remainingQty) (hy : y ∈ x.queues (locate, o.side.bookSide)) :
    LeftOf (if y.orderId = o.orderId then { y with remainingQty := y.remainingQty - shares }
      else y) y := by
  split
  · rename_i hid
    obtain rfl := (hx.refs _ _ y o hy (hx.mem_of_owned ho) hid).2
    obtain ⟨hle, hne⟩ := sub_le_and_ne_zero hlt
    exact ⟨rfl, rfl, rfl, rfl, hle, fun _ => hne⟩
  · exact LeftOf.refl y

/-- A partial cancel of an order that has more. -/
theorem thins_reduce (hx : x.Proper) (ho : x.owned locate ref userId = some o)
    (hlt : shares < o.remainingQty) :
    Thins x (x.reduce locate o shares) := by
  intro π y hy
  simp only [reduce] at hy
  by_cases hπ : π = (locate, o.side.bookSide)
  · subst hπ
    rw [Function.update_self, Queue.modify, List.mem_map] at hy
    obtain ⟨y', hy', rfl⟩ := hy
    exact ⟨y', hy', leftOf_reduced hx ho hlt hy'⟩
  · rw [Function.update_of_ne hπ] at hy
    exact ⟨y, hy, LeftOf.refl y⟩

/-- A partial cancel takes no order off. -/
theorem exists_mem_reduce (hx : x.Proper) (ho : x.owned locate ref userId = some o)
    (hlt : shares < o.remainingQty) (hy : y ∈ x.queues π) :
    ∃ y' ∈ (x.reduce locate o shares).queues π, LeftOf y' y := by
  simp only [reduce]
  by_cases hπ : π = (locate, o.side.bookSide)
  · subst hπ
    rw [Function.update_self]
    exact ⟨_, List.mem_map.mpr ⟨y, hy, rfl⟩, leftOf_reduced hx ho hlt hy⟩
  · rw [Function.update_of_ne hπ]
    exact ⟨y, hy, LeftOf.refl y⟩

/-- Entering a queue adds one order. -/
theorem mem_queue_insert {d : BookSide} {q : List OrderInfo} :
    y ∈ Queue.insert d o q ↔ y = o ∨ y ∈ q := by
  induction q with
  | nil => simp [Queue.insert]
  | cons z q ih =>
      rw [Queue.insert]
      split
      · simp
      · rw [List.mem_cons, ih, List.mem_cons]
        tauto

/-- The orders after one entered. -/
theorem mem_enter :
    y ∈ (x.enter keep locate o).queues π ↔
      (π = (locate, o.side.bookSide) ∧ y = o) ∨ y ∈ x.queues π := by
  simp only [enter]
  by_cases hπ : π = (locate, o.side.bookSide)
  · subst hπ
    rw [Function.update_self, mem_queue_insert]
    simp
  · rw [Function.update_of_ne hπ]
    simp [hπ]

/-- The orders after a submission: what is left of the old ones, and what is left of the
new one. -/
theorem Submitted.mem (h : Submitted keep x locate o r) (hy : y ∈ r.1.queues π) :
    (∃ y' ∈ x.queues π, LeftOf y y') ∨
      (π = (locate, o.side.bookSide) ∧ y = x.takerAfterMatch locate o ∧
        (x.takerAfterMatch locate o).status ≠ .filled) := by
  cases h with
  | filled _ | dropped _ _ _ => exact Or.inl (thins_matched x locate o π y hy)
  | rested hs _ _ =>
      rcases mem_enter.mp hy with ⟨hπ, hy⟩ | hy
      · exact Or.inr ⟨hπ, hy, hs⟩
      · exact Or.inl (thins_matched x locate o π y hy)

/-- After a submission, the references but its own rest that rest after the match. -/
theorem Submitted.absent_iff (h : Submitted keep x locate o r) (hne : o.orderId ≠ ref) :
    r.1.Absent ref ↔ (x.matched locate o).Absent ref := by
  cases h with
  | filled _ => rfl
  | dropped _ _ _ => rfl
  | rested _ _ _ =>
      refine ⟨fun hno π y hy => hno π y (mem_enter.mpr (Or.inr hy)), fun hno π y hy => ?_⟩
      rcases mem_enter.mp hy with ⟨-, rfl⟩ | hy
      · exact hne
      · exact hno π y hy

/-- The orders after a call: what is left of the old ones, and one with the new reference. -/
theorem Does.mem (hx : x.Proper) (h : Does keep x c r) (hy : y ∈ r.1.queues π) :
    (∃ y' ∈ x.queues π, LeftOf y y') ∨
      (π.1 = c.locate ∧ c.newRef? = some y.orderId ∧ c.taker? = some y.userId) := by
  cases h with
  | refused _ _ _ => exact Or.inl ⟨y, hy, LeftOf.refl y⟩
  | cancelled _ | usedUp _ _ => exact Or.inl (thins_remove x _ _ π y hy)
  | reduced ho hlt => exact Or.inl (thins_reduce hx ho hlt π y hy)
  | added _ _ hr =>
      rcases hr.mem hy with hy | ⟨rfl, rfl, -⟩
      · exact Or.inl hy
      · exact Or.inr ⟨rfl, rfl, rfl⟩
  | replaced _ hr =>
      rcases hr.mem hy with ⟨y', hy', hl⟩ | ⟨rfl, rfl, -⟩
      · obtain ⟨y'', hy'', hl'⟩ := thins_remove x _ _ π y' hy'
        exact Or.inl ⟨y'', hy'', hl.trans hl'⟩
      · exact Or.inr ⟨rfl, rfl, rfl⟩

/-- A submission leaves the other books alone. -/
theorem Submitted.queues_of_ne (h : Submitted keep x locate o r) (hπ : π.1 ≠ locate) :
    r.1.queues π = x.queues π := by
  have hne : ∀ d, π ≠ (locate, d) := by
    rintro d rfl
    exact hπ rfl
  have hmatched : (x.matched locate o).queues π = x.queues π := Function.update_of_ne (hne _) _ _
  cases h with
  | filled _ => exact hmatched
  | dropped _ _ _ => exact hmatched
  | rested _ _ _ => exact (Function.update_of_ne (hne _) _ _).trans hmatched

/-- A call leaves the other books alone. -/
theorem Does.queues_of_ne (h : Does keep x c r) (hπ : π.1 ≠ c.locate) :
    r.1.queues π = x.queues π := by
  have hne : ∀ d, π ≠ (c.locate, d) := by
    rintro d rfl
    exact hπ rfl
  cases h with
  | refused _ _ _ => rfl
  | cancelled _ | usedUp _ _ | reduced _ _ => exact Function.update_of_ne (hne _) _ _
  | added _ _ hr => exact hr.queues_of_ne hπ
  | replaced _ hr => exact (hr.queues_of_ne hπ).trans (Function.update_of_ne (hne _) _ _)

/-! ### The fate of an order -/

/-- The queues after a match. -/
theorem matched_queues (x : Exchange) (locate : UInt64) (o : OrderInfo) :
    (x.matched locate o).queues = Function.update x.queues (locate, o.side.bookSide.opposite)
      (x.fills locate o).queue := rfl

/-- A match keeps an order, fills it in part, or uses it up. -/
theorem Proper.fate (hx : x.Proper) (locate : UInt64) (o : OrderInfo) (hy : y ∈ x.queues π) :
    Fate { x.fills locate o with queue := (x.matched locate o).queues π } y := by
  rw [matched_queues]
  by_cases hπ : π = (locate, o.side.bookSide.opposite)
  · subst hπ
    rw [Function.update_self]
    exact greedy_fate (hx.nodup _) hy
  · rw [Function.update_of_ne hπ]
    refine .kept (fun t ht e => ?_) hy
    exact hπ (hx.refs _ _ y t.1 hy (mem_of_mem_trades ht).1 e.symm).1

/-- An order the match left nothing of rests nowhere. -/
theorem Proper.absent_matched (hx : x.Proper) (hy : y ∈ x.queues π)
    (hgone : ∀ z ∈ (x.matched locate o).queues π, z.orderId ≠ y.orderId) :
    (x.matched locate o).Absent y.orderId := by
  intro π' z hz hid
  obtain ⟨z', hz', hl⟩ := thins_matched x locate o π' z hz
  obtain ⟨rfl, -⟩ := hx.refs _ _ z' y hz' hy (hl.orderId.symm.trans hid)
  exact hgone z hz hid

/-- The orders a match takes off are those a trade of it uses up. -/
theorem Proper.absent_matched_iff (hx : x.Proper) (hy : y ∈ x.queues π) :
    (x.matched locate o).Absent y.orderId ↔
      ∃ t ∈ (x.fills locate o).trades, t.1.orderId = y.orderId ∧ t.2 = t.1.remainingQty := by
  cases hx.fate locate o hy with
  | kept hno hkeep =>
      exact iff_of_false (fun habs => habs π y hkeep rfl) fun ⟨t, ht, hid, _⟩ => hno t ht hid
  | partly n _ hlt htrades hkeep =>
      refine iff_of_false (fun habs => habs π _ hkeep rfl) ?_
      rintro ⟨t, ht, hid, hall⟩
      have hmem : t ∈ (x.fills locate o).trades.filter fun t => t.1.orderId = y.orderId :=
        List.mem_filter.mpr ⟨ht, decide_eq_true hid⟩
      rw [show (x.fills locate o).trades.filter _ = _ from htrades, List.mem_singleton] at hmem
      subst hmem
      exact UInt32.ne_of_lt hlt hall
  | usedUp htrades hgone =>
      refine iff_of_true (hx.absent_matched hy hgone) ?_
      have hmem : (y, y.remainingQty) ∈ [(y, y.remainingQty)] := List.mem_singleton_self _
      rw [← htrades] at hmem
      exact ⟨_, (List.mem_filter.mp hmem).1, rfl, rfl⟩

/-- A removal leaves an exchange in order. -/
theorem Proper.remove (hx : x.Proper) (locate : UInt64) (o : OrderInfo) :
    (x.remove locate o).Proper := by
  have hsub : ∀ π, ((x.remove locate o).queues π).Sublist (x.queues π) := by
    intro π
    simp only [Exchange.remove]
    by_cases hπ : π = (locate, o.side.bookSide)
    · subst hπ
      rw [Function.update_self]
      exact List.filter_sublist
    · rw [Function.update_of_ne hπ]
  refine ⟨fun π π' y y' hy hy' => hx.refs π π' y y' ((hsub π).subset hy) ((hsub π').subset hy'),
    fun π => (hx.nodup π).sublist ((hsub π).map _), fun π y hy => hx.sides π y ((hsub π).subset hy),
    fun π => (hx.sorted π).sublist (hsub π), fun ref href => ?_⟩
  simp only [Exchange.remove] at href ⊢
  by_cases hne : ref = o.orderId
  · subst hne
    rw [Function.update_self] at href
    exact absurd href (by simp)
  · rw [Function.update_of_ne hne] at href
    obtain ⟨π, y, hy, rfl⟩ := hx.indexed ref href
    refine ⟨π, y, ?_, rfl⟩
    by_cases hπ : π = (locate, o.side.bookSide)
    · subst hπ
      rw [Function.update_self]
      exact List.mem_filter.mpr ⟨hy, by simpa using hne⟩
    · rw [Function.update_of_ne hπ]
      exact hy

/-- The queues after a removal. -/
theorem Proper.remove_queues (hx : x.Proper) (ho : o ∈ x.queues (locate, o.side.bookSide))
    (π : Place) :
    (x.remove locate o).queues π = (x.queues π).filter fun y => y.orderId ≠ o.orderId := by
  simp only [Exchange.remove]
  by_cases hπ : π = (locate, o.side.bookSide)
  · subst hπ
    rw [Function.update_self]
    rfl
  · rw [Function.update_of_ne hπ, eq_comm, List.filter_eq_self]
    intro y hy
    have hne : y.orderId ≠ o.orderId := fun e => hπ (hx.refs _ _ y o hy ho e).1
    simpa using hne

/-- A removal takes one reference off. -/
theorem mem_remove_iff (hx : x.Proper) (ho : o ∈ x.queues (locate, o.side.bookSide)) :
    y ∈ (x.remove locate o).queues π ↔ y ∈ x.queues π ∧ y.orderId ≠ o.orderId := by
  rw [hx.remove_queues ho, List.mem_filter]
  simp

/-- A removal takes the reference off. -/
theorem absent_remove (hx : x.Proper) (ho : x.owned locate ref userId = some o) :
    (x.remove locate o).Absent ref := by
  intro π y hy hid
  obtain ⟨-, -, hoid, -⟩ := mem_of_owned ho
  exact ((mem_remove_iff hx (hx.mem_of_owned ho)).mp hy).2 (hid.trans hoid.symm)

/-- The order a call acts on is taken off, and no other one. -/
theorem eq_or_mem_remove (hx : x.Proper) (ho : x.owned locate ref userId = some o)
    (hy : y ∈ x.queues π) :
    y.orderId = ref ∨ y ∈ (x.remove locate o).queues π := by
  obtain ⟨-, -, hid, -⟩ := mem_of_owned ho
  by_cases hne : y.orderId = o.orderId
  · exact Or.inl (hne.trans hid)
  · exact Or.inr ((mem_remove_iff hx (hx.mem_of_owned ho)).mpr ⟨hy, hne⟩)

/-- A trade frame of a submission names an order of the book that is not the taker's own. -/
theorem Submitted.trade (h : Submitted keep x locate o r) {t : Trade} (ht : .trade t ∈ r.2) :
    ∃ y ∈ x.queues (locate, o.side.bookSide.opposite), y.orderId = t.orderRef ∧
      ¬ Skips o.userId y ∧ (y.remainingQty ≠ 0 → t.quantity ≠ 0) := by
  obtain ⟨tail, hout, -, htail⟩ := h.out
  rw [hout, List.mem_append] at ht
  rcases ht with ht | ht
  · obtain ⟨p, hp, rfl⟩ := mem_tradeFrames.mp ht
    obtain ⟨hmem, hskip⟩ := mem_of_mem_trades hp
    exact ⟨p.1, hmem, rfl, hskip, (trade_quantity hp).2⟩
  · exact absurd ht (htail t)

/-- A trade frame of a call names a resting order that is not the taker's own. -/
theorem Does.trade (hx : x.Proper) (h : Does keep x c r) {t : Trade} (ht : .trade t ∈ r.2) :
    ∃ u π, c.taker? = some u ∧ ∃ y ∈ x.queues π, y.orderId = t.orderRef ∧ ¬ Skips u y ∧
      (y.remainingQty ≠ 0 → t.quantity ≠ 0) := by
  cases h with
  | refused _ _ _ => simp at ht
  | cancelled _ => simp at ht
  | usedUp _ _ => simp at ht
  | reduced _ _ => simp at ht
  | added _ _ hr =>
      obtain ⟨y, hy, hrest⟩ := hr.trade ht
      exact ⟨_, _, rfl, y, hy, hrest⟩
  | replaced ho hr =>
      obtain ⟨y, hy, hrest⟩ := hr.trade ht
      exact ⟨_, _, rfl, y, ((mem_remove_iff hx (hx.mem_of_owned ho)).mp hy).1, hrest⟩

/-! ### Exchanges whose index knows every order -/

/-- The index knows every resting order. -/
def Complete (x : Exchange) : Prop := ∀ π, ∀ o ∈ x.queues π, x.indexed o.orderId = true

theorem Complete.remove (hc : x.Complete) (hx : x.Proper)
    (ho : o ∈ x.queues (locate, o.side.bookSide)) : (x.remove locate o).Complete := by
  intro π y hy
  obtain ⟨hy, hne⟩ := (mem_remove_iff hx ho).mp hy
  simp only [Exchange.remove]
  rw [Function.update_of_ne hne]
  exact hc π y hy

theorem Complete.matched (hc : x.Complete) (hx : x.Proper) (locate : UInt64) (o : OrderInfo) :
    (x.matched locate o).Complete := by
  intro π z hz
  obtain ⟨y, hy, hl⟩ := thins_matched x locate o π z hz
  show (x.indexed z.orderId && !(x.fills locate o).consumed.contains z.orderId) = true
  rw [hl.orderId, hc π y hy, Bool.true_and, Bool.not_eq_true', Bool.eq_false_iff, Ne,
    List.contains_iff_mem]
  intro hmem
  obtain ⟨t, ht, hid⟩ := List.mem_map.mp hmem
  obtain ⟨ht, hused⟩ := List.mem_filter.mp ht
  -- The order of a trade that used it up is not in the queue any more.
  cases hx.fate locate o hy with
  | kept hno _ => exact hno t ht hid
  | partly n _ hlt htrades _ =>
      have : t ∈ [(y, n)] := htrades ▸ List.mem_filter.mpr ⟨ht, by simpa using hid⟩
      rw [List.mem_singleton] at this
      subst this
      have hn : y.remainingQty = n := by simpa using hused
      exact absurd hlt (by rw [hn]; exact UInt32.lt_irrefl n)
  | usedUp _ hgone => exact hgone z hz hl.orderId

theorem Complete.enter (hc : x.Complete) (locate : UInt64) (o : OrderInfo) :
    (x.enter true locate o).Complete := by
  intro π y hy
  simp only [Exchange.enter, if_true]
  by_cases hid : y.orderId = o.orderId
  · rw [hid, Function.update_self]
  · rw [Function.update_of_ne hid]
    rcases mem_enter.mp hy with ⟨-, rfl⟩ | hy
    · exact absurd rfl hid
    · exact hc π y hy

theorem Submitted.complete (h : Submitted true x locate o r) (hc : x.Complete) (hx : x.Proper) :
    r.1.Complete := by
  cases h with
  | filled _ | dropped _ _ _ => exact hc.matched hx locate o
  | rested _ _ _ => exact (hc.matched hx locate o).enter locate _

/-- A call whose entry is kept leaves the index complete. -/
theorem Does.complete (h : Does true x c r) (hc : x.Complete) (hx : x.Proper) : r.1.Complete := by
  cases h with
  | refused _ _ _ => exact hc
  | cancelled ho | usedUp ho _ => exact hc.remove hx (hx.mem_of_owned ho)
  | reduced ho hlt =>
      intro π y hy
      obtain ⟨y', hy', hl⟩ := thins_reduce hx ho hlt π y hy
      rw [hl.orderId]
      exact hc π y' hy'
  | added _ _ hr => exact hr.complete hc hx
  | replaced ho hr =>
      have hmem := hx.mem_of_owned ho
      exact hr.complete (hc.remove hx hmem) (hx.remove _ _)

end

end Exchange

end NebulaX
